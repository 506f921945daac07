import CascadePlayground.Debug.Latencies
import CascadePlayground.Dict

/-! The latencies of the microbenchmark.

The observer of `requester_udl.cpp` gets one object as often as a request asks it to. It
logs three events for each get, with the number of the get in the request.
`get_latencies.py` puts the timestamps in arrays by these numbers, so that of all requests
in the log the last event of a kind counts, and subtracts the arrays. What it computes are
latencies of gets exactly when, for each number it looks at, some get begins last, ends last
and is answered last, and some time has passed (`microbenchmark_right_iff`). The gets of a
single request are always like this (`served_single`). Arithmetic is exact here. -/
namespace CascadePlayground.Microbenchmark
open Text Interleaving
open Affinity (PyError intField intField_integer)
open Debug (Event Call tltUdlGet tagUdlGetStart tagUdlGetEnd tagUdlWaitEnd array sub sub_of_length_eq)

/-! ### The log -/

/-- The times at which the observer logs, for one get. -/
structure Times where
  getStart : Int
  getEnd : Int
  waitEnd : Int
deriving DecidableEq, Repr

/-- A request, with the node that serves it and as many gets as it asks for. -/
structure Request where
  nodeId : Int
  gets : List Times
deriving DecidableEq, Repr

def Request.calls (r : Request) : List Call :=
  r.gets.zipIdx.map fun x => ⟨r.nodeId, x.2, x.1.getStart, x.1.getEnd, x.1.waitEnd⟩

/-- What `RequesterObserver::operator()` logs. -/
def Request.events (r : Request) : List Event := r.calls.flatMap Call.events

/-- How `global_timestamp_logger` writes an event: the object is the third word. -/
structure Logger extends Debug.Logger where
  objId : ∀ e, (split (line e))[2]? = some (integer e.objId)

/-! ### The script -/

inductive Failure where
  | python (e : PyError)
  | overflowError
  | zeroDivisionError
deriving DecidableEq, Repr

/-- `a[i] = value`, for an array of 64-bit integers. -/
def setItem (a : List Int) (i : Nat) (value : Int) : Except Failure (List Int) :=
  if a.length ≤ i then .error (.python .indexError)
  else if value < -2 ^ 63 ∨ 2 ^ 63 ≤ value then .error .overflowError
  else .ok (a.set i value)

abbrev Timestamps := Dict Int (List Int)

def zeros (n : Nat) : Timestamps where
  entries := [(tagUdlGetStart, List.replicate n 0), (tagUdlGetEnd, List.replicate n 0),
    (tagUdlWaitEnd, List.replicate n 0)]
  nodup := by
    show [tagUdlGetStart, tagUdlGetEnd, tagUdlWaitEnd].Nodup
    decide

def store (timestamps : Timestamps) (tag : Int) (i : Nat) (value : Int) : Except Failure Timestamps :=
  match timestamps.get? tag with
  | some a => (setItem a i value).map fun b => timestamps.update tag fun _ => b
  | none => .ok timestamps

def readField (fields : List (List Char)) (i : Nat) : Except Failure Int :=
  (intField fields i).mapError .python

def readLine (skip : Int) (timestamps : Timestamps) (line : List Char) : Except Failure Timestamps := do
  let fields := split line
  let tag ← readField fields 0
  let objId ← readField fields 2
  let value ← readField fields 3
  if objId < skip then .ok timestamps
  else store timestamps tag (objId - skip).toNat value

/-- The size of the arrays. -/
def size (total skip : Int) : Nat := (total - skip).toNat

def readTimestamps (file : List Char) (total skip : Int) : Except Failure Timestamps :=
  (lines (universalNewlines file)).foldlM (readLine skip) (zeros (size total skip))

/-- `udl_wait_end[-1] - udl_get_start[0]` -/
def totalTime (udlWaitEnd udlGetStart : List ℚ) : Except Failure ℚ :=
  match udlWaitEnd.getLast?, udlGetStart.head? with
  | some last, some first => .ok (last - first)
  | _, _ => .error (.python .indexError)

def throughputOf (samples : Nat) (udlTotalTime : ℚ) : Except Failure ℚ :=
  if udlTotalTime = 0 then .error .zeroDivisionError else .ok (samples / udlTotalTime * 1000000)

structure Latencies where
  get : List ℚ
  wait : List ℚ
  total : List ℚ
  throughput : ℚ
deriving DecidableEq, Repr

/-- What the script prints, but for the means and standard deviations. The arrays have one
length. -/
def latencies (file : List Char) (total skip : Int) : Except Failure Latencies := do
  let timestamps ← readTimestamps file total skip
  let udlGetStart := array ((timestamps.get? tagUdlGetStart).getD [])
  let udlGetEnd := array ((timestamps.get? tagUdlGetEnd).getD [])
  let udlWaitEnd := array ((timestamps.get? tagUdlWaitEnd).getD [])
  let udlGetLat ← (sub udlGetEnd udlGetStart).mapError .python
  let udlWaitLat ← (sub udlWaitEnd udlGetEnd).mapError .python
  let udlTotalTime ← totalTime udlWaitEnd udlGetStart
  let throughput ← throughputOf udlGetLat.length udlTotalTime
  .ok ⟨udlGetLat, udlWaitLat, List.zipWith (· + ·) udlGetLat udlWaitLat, throughput⟩

/-! ### What the latencies are -/

/-- No get of this number is later. -/
def IsLast (calls : List Call) (time : Call → Int) (c : Call) : Prop :=
  ∀ c' ∈ calls, c'.objId = c.objId → time c' ≤ time c

/-- The latest time of the gets of this number, and 0 where there is none. -/
def latest (calls : List Call) (time : Call → Int) (number : Int) : Int :=
  ((calls.filter fun c => c.objId = number).map time).max?.getD 0

/-- From the last start of the first number to the last answer of the last one. -/
def elapsed (calls : List Call) (total skip : Int) : ℚ :=
  latest calls Call.waitEnd (total - 1) / 1000 - latest calls Call.getStart skip / 1000

/-- For each number the latencies of a get that began last. -/
structure RightFor (calls : List Call) (total skip : Int) (lat : Latencies) : Prop where
  get_length : lat.get.length = size total skip
  wait_length : lat.wait.length = size total skip
  total_length : lat.total.length = size total skip
  entries : ∀ i < size total skip, ∃ c ∈ calls, c.objId = skip + i ∧ IsLast calls Call.getStart c ∧
    lat.get[i]? = some c.getLat ∧ lat.wait[i]? = some c.waitLat ∧
      lat.total[i]? = some (c.getLat + c.waitLat)
  throughput : lat.throughput = size total skip / elapsed calls total skip * 1000000

/-- There are no numbers from `total` on, and for each of the others some get begins last, ends
last and is answered last. -/
structure Served (calls : List Call) (total skip : Int) : Prop where
  below : ∀ c ∈ calls, skip ≤ c.objId → c.objId < total
  last : ∀ number, skip ≤ number → number < total → ∃ c ∈ calls, c.objId = number ∧
    IsLast calls Call.getStart c ∧ IsLast calls Call.getEnd c ∧ IsLast calls Call.waitEnd c

/-! ### What is read from a log -/

def knownTags : List Int := [tagUdlGetStart, tagUdlGetEnd, tagUdlWaitEnd]

/-- The arrays have `f tag i` at place `i`. -/
def Shows (timestamps : Timestamps) (n : Nat) (f : Int → Nat → Int) : Prop :=
  ∀ tag, timestamps.get? tag = if tag ∈ knownTags then some ((List.range n).map (f tag)) else none

theorem shows_zeros (n : Nat) : Shows (zeros n) n fun _ _ => 0 := by
  intro tag
  have hzeros : (List.range n).map (fun _ => (0 : Int)) = List.replicate n 0 := by
    rw [List.map_const', List.length_range]
  rw [hzeros]
  by_cases h : tag ∈ knownTags
  · rw [if_pos h]
    simp only [knownTags, List.mem_cons, List.not_mem_nil, or_false] at h
    rcases h with rfl | rfl | rfl <;> rfl
  · rw [if_neg h]
    by_contra hsome
    exact h ((Dict.mem_keys_iff (zeros n) tag).mpr hsome)

/-- The timestamp fits into an element of an array. -/
def Fits (e : Event) : Prop := -2 ^ 63 ≤ e.timestamp ∧ e.timestamp < 2 ^ 63

/-- The event is put in the arrays. -/
def Counts (skip : Int) (e : Event) : Prop := e.tag ∈ knownTags ∧ skip ≤ e.objId

instance (skip : Int) (e : Event) : Decidable (Counts skip e) := instDecidableAnd

/-- What the event makes of what the arrays show. -/
def noted (skip : Int) (f : Int → Nat → Int) (e : Event) : Int → Nat → Int := fun tag i =>
  if e.tag = tag ∧ e.objId = skip + i then e.timestamp else f tag i

theorem noted_of_ne {skip : Int} {e : Event} {tag : Int} (f : Int → Nat → Int)
    (h : e.tag = tag → e.objId < skip) : noted skip f e tag = f tag := by
  funext i
  have hne : ¬ (e.tag = tag ∧ e.objId = skip + i) := fun hi => by
    have := h hi.1
    omega
  exact if_neg hne

theorem readLine_line (logger : Logger) (skip : Int) (timestamps : Timestamps) (e : Event) :
    readLine skip timestamps (logger.line e ++ ['\n']) =
      if e.objId < skip then .ok timestamps else store timestamps e.tag (e.objId - skip).toNat e.timestamp := by
  rw [readLine, split_newline, readField, readField, readField, intField_integer 0 e.tag (logger.tag e),
    intField_integer 2 e.objId (logger.objId e), intField_integer 3 e.timestamp (logger.timestamp e)]
  rfl

section Read
variable {skip : Int} {n : Nat} {timestamps : Timestamps} {f : Int → Nat → Int} {e : Event}

theorem setItem_noted (f : Int → Nat → Int) (hfits : Fits e) (hskip : ¬ e.objId < skip)
    (hlt : (e.objId - skip).toNat < n) :
    setItem ((List.range n).map (f e.tag)) (e.objId - skip).toNat e.timestamp =
      .ok ((List.range n).map (noted skip f e e.tag)) := by
  have hlength : ¬ ((List.range n).map (f e.tag)).length ≤ (e.objId - skip).toNat := by
    rw [List.length_map, List.length_range]
    omega
  rw [setItem, if_neg hlength, if_neg (by unfold Fits at hfits; omega)]
  refine congrArg Except.ok (List.ext_getElem (by simp) fun i h₁ h₂ => ?_)
  rw [List.getElem_set, List.getElem_map, List.getElem_map, List.getElem_range, noted]
  have hnumber : (e.objId - skip).toNat = i ↔ e.tag = e.tag ∧ e.objId = skip + i := by omega
  simp only [hnumber]

/-- An event that has a place in the arrays. -/
theorem readLine_inside (logger : Logger) (h : Shows timestamps n f) (hfits : Fits e)
    (he : Counts skip e → e.objId < skip + n) :
    ∃ timestamps', readLine skip timestamps (logger.line e ++ ['\n']) = .ok timestamps' ∧
      Shows timestamps' n (noted skip f e) := by
  rw [readLine_line]
  by_cases hskip : e.objId < skip
  · rw [if_pos hskip]
    refine ⟨timestamps, rfl, fun tag => ?_⟩
    rw [h tag, noted_of_ne f fun _ => hskip]
  · rw [if_neg hskip, store, h e.tag]
    by_cases htag : e.tag ∈ knownTags
    · rw [if_pos htag]
      have hlt : (e.objId - skip).toNat < n := by
        have := he ⟨htag, Int.not_lt.mp hskip⟩
        omega
      simp only [setItem_noted f hfits hskip hlt]
      refine ⟨_, rfl, fun tag => ?_⟩
      rw [Dict.get?_update, h tag]
      by_cases he : tag = e.tag
      · rw [if_pos he, he, if_pos htag]
      · rw [if_neg he, noted_of_ne f fun hi => absurd hi.symm he]
    · rw [if_neg htag]
      refine ⟨timestamps, rfl, fun tag => ?_⟩
      rw [h tag]
      by_cases hknown : tag ∈ knownTags
      · have hne : e.tag ≠ tag := fun he => htag (he.symm ▸ hknown)
        rw [noted_of_ne f fun he => absurd he hne]
      · rw [if_neg hknown, if_neg hknown]

/-- An event that has none. -/
theorem readLine_outside (logger : Logger) (h : Shows timestamps n f) (he : Counts skip e)
    (hout : skip + n ≤ e.objId) :
    readLine skip timestamps (logger.line e ++ ['\n']) = .error (.python .indexError) := by
  have hlength : ((List.range n).map (f e.tag)).length ≤ (e.objId - skip).toNat := by
    rw [List.length_map, List.length_range]
    omega
  rw [readLine_line, if_neg (Int.not_lt.mpr he.2), store, h e.tag, if_pos he.1]
  simp only [setItem, if_pos hlength]
  rfl

/-- The timestamps of one kind and number. -/
def stamps (tag number : Int) (log : List Event) : List Int :=
  (log.filter fun e => e.tag = tag ∧ e.objId = number).map Event.timestamp

theorem stamps_cons (tag number : Int) (e : Event) (log : List Event) :
    stamps tag number (e :: log) =
      (if e.tag = tag ∧ e.objId = number then [e.timestamp] else []) ++ stamps tag number log := by
  by_cases h : e.tag = tag ∧ e.objId = number
  · simp [stamps, h]
  · simp [stamps, h]

/-- What comes last in the log, and `f` where nothing does. -/
def lastStamp (skip : Int) (f : Int → Nat → Int) (log : List Event) : Int → Nat → Int := fun tag i =>
  (stamps tag (skip + i) log).getLast?.getD (f tag i)

theorem lastStamp_cons (skip : Int) (f : Int → Nat → Int) (e : Event) (log : List Event) :
    lastStamp skip f (e :: log) = lastStamp skip (noted skip f e) log := by
  funext tag i
  rw [lastStamp, lastStamp, stamps_cons, noted]
  by_cases hi : e.tag = tag ∧ e.objId = skip + i
  · rw [if_pos hi, if_pos hi, List.singleton_append, List.getLast?_cons]
    cases (stamps tag (skip + i) log).getLast? <;> rfl
  · rw [if_neg hi, if_neg hi, List.nil_append]

variable (skip) in
/-- The script fails when an event has no place, and has what comes last in the log otherwise. -/
theorem foldlM_log (logger : Logger) (log : List Event) (hfits : ∀ e ∈ log, Fits e)
    (h : Shows timestamps n f) :
    ((∃ e ∈ log, Counts skip e ∧ skip + n ≤ e.objId) →
        (log.map fun e => logger.line e ++ ['\n']).foldlM (readLine skip) timestamps =
          .error (.python .indexError)) ∧
      ((∀ e ∈ log, Counts skip e → e.objId < skip + n) →
        ∃ timestamps', (log.map fun e => logger.line e ++ ['\n']).foldlM (readLine skip) timestamps =
            .ok timestamps' ∧
          Shows timestamps' n (lastStamp skip f log)) := by
  induction log generalizing timestamps f with
  | nil =>
    refine ⟨fun hout => ?_, fun _ => ⟨timestamps, rfl, h⟩⟩
    obtain ⟨e, he, _⟩ := hout
    cases he
  | cons e log ih =>
    rw [List.forall_mem_cons] at hfits
    rw [List.map_cons, List.foldlM_cons]
    by_cases hout : Counts skip e ∧ skip + n ≤ e.objId
    · have herror := readLine_outside logger h hout.1 hout.2
      refine ⟨fun _ => by rw [herror]; rfl, fun hall => ?_⟩
      have := hall e (List.mem_cons_self ..) hout.1
      omega
    · have hin : Counts skip e → e.objId < skip + n := fun he => by
        by_contra hle
        exact hout ⟨he, Int.not_lt.mp hle⟩
      obtain ⟨timestamps₁, hread, hshows⟩ := readLine_inside logger h hfits.1 hin
      rw [hread]
      obtain ⟨herror, hok⟩ := ih hfits.2 hshows
      refine ⟨fun hexists => ?_, fun hall => ?_⟩
      · obtain ⟨e', he', hout'⟩ := hexists
        rcases List.mem_cons.mp he' with rfl | he'
        · exact absurd hout' hout
        · exact herror ⟨e', he', hout'⟩
      · obtain ⟨timestamps₂, hfold, hshows'⟩ := hok fun e' he' => hall e' (List.mem_cons_of_mem _ he')
        rw [lastStamp_cons]
        exact ⟨timestamps₂, hfold, hshows'⟩

end Read

/-- What the arrays are left with. -/
def stampsFrom (tag : Int) (total skip : Int) (log : List Event) : List Int :=
  (List.range (size total skip)).map (lastStamp skip (fun _ _ => 0) log tag)

/-- What is computed from the arrays. -/
def difference (tag tag' : Int) (total skip : Int) (log : List Event) : List ℚ :=
  List.zipWith (· - ·) (array (stampsFrom tag' total skip log)) (array (stampsFrom tag total skip log))

def computed (total skip : Int) (log : List Event) (throughput : ℚ) : Latencies where
  get := difference tagUdlGetStart tagUdlGetEnd total skip log
  wait := difference tagUdlGetEnd tagUdlWaitEnd total skip log
  total := List.zipWith (· + ·) (difference tagUdlGetStart tagUdlGetEnd total skip log)
    (difference tagUdlGetEnd tagUdlWaitEnd total skip log)
  throughput := throughput

theorem stampsFrom_getElem (tag : Int) {total skip : Int} (log : List Event) {i : Nat}
    (hi : i < size total skip) :
    (array (stampsFrom tag total skip log))[i]? = some ((lastStamp skip (fun _ _ => 0) log tag i : ℚ) / 1000) := by
  have hrange : (List.range (size total skip))[i]? = some i := List.getElem?_range hi
  rw [array, stampsFrom, List.getElem?_map, List.getElem?_map, hrange]
  rfl

theorem difference_getElem (tag tag' : Int) {total skip : Int} (log : List Event) {i : Nat}
    (hi : i < size total skip) :
    (difference tag tag' total skip log)[i]? =
      some ((lastStamp skip (fun _ _ => 0) log tag' i : ℚ) / 1000 - lastStamp skip (fun _ _ => 0) log tag i / 1000) := by
  rw [difference, List.getElem?_zipWith, stampsFrom_getElem tag log hi, stampsFrom_getElem tag' log hi]

theorem stampsFrom_length (tag total skip : Int) (log : List Event) :
    (array (stampsFrom tag total skip log)).length = size total skip := by
  simp [array, stampsFrom]

theorem difference_length (tag tag' total skip : Int) (log : List Event) :
    (difference tag tag' total skip log).length = size total skip := by
  rw [difference, List.length_zipWith, stampsFrom_length, stampsFrom_length, Nat.min_self]

/-- The time between two entries of the arrays, which have some. -/
theorem totalTime_stamps {total skip : Int} (h : skip < total) (log : List Event) :
    totalTime (array (stampsFrom tagUdlWaitEnd total skip log))
        (array (stampsFrom tagUdlGetStart total skip log)) =
      .ok ((lastStamp skip (fun _ _ => 0) log tagUdlWaitEnd (size total skip - 1) : ℚ) / 1000 -
        lastStamp skip (fun _ _ => 0) log tagUdlGetStart 0 / 1000) := by
  have hpos : 0 < size total skip := by
    unfold size
    omega
  rw [totalTime, List.getLast?_eq_getElem?, List.head?_eq_getElem?, stampsFrom_length,
    stampsFrom_getElem _ _ (Nat.sub_one_lt_of_lt hpos), stampsFrom_getElem _ _ hpos]

theorem totalTime_nil {total skip : Int} (h : total ≤ skip) (log : List Event) :
    totalTime (array (stampsFrom tagUdlWaitEnd total skip log))
        (array (stampsFrom tagUdlGetStart total skip log)) = .error (.python .indexError) := by
  have hnil : array (stampsFrom tagUdlWaitEnd total skip log) = [] := by
    rw [← List.length_eq_zero_iff, stampsFrom_length, size, Int.toNat_eq_zero]
    omega
  rw [totalTime, hnil]
  rfl

/-- The script fails when an event that counts has no place in the arrays, and computes from what
comes last in the log otherwise. -/
theorem latencies_file (logger : Logger) (log : List Event) (hfits : ∀ e ∈ log, Fits e) (total skip : Int) :
    ((∃ e ∈ log, Counts skip e ∧ total ≤ e.objId) →
        latencies (logger.file log) total skip = .error (.python .indexError)) ∧
      ((∀ e ∈ log, Counts skip e → e.objId < total) →
        latencies (logger.file log) total skip = (do
          let time ← totalTime (array (stampsFrom tagUdlWaitEnd total skip log))
            (array (stampsFrom tagUdlGetStart total skip log))
          let throughput ← throughputOf (size total skip) time
          .ok (computed total skip log throughput))) := by
  have hsize : ∀ e : Event, Counts skip e → (skip + size total skip ≤ e.objId ↔ total ≤ e.objId) := by
    intro e he
    have := he.2
    unfold size
    omega
  obtain ⟨herror, hok⟩ := foldlM_log skip logger log hfits (shows_zeros (size total skip))
  rw [← logger.lines_file] at herror hok
  constructor
  · intro hout
    obtain ⟨e, he, hcounts, htotal⟩ := hout
    rw [latencies, readTimestamps, herror ⟨e, he, hcounts, (hsize e hcounts).mpr htotal⟩]
    rfl
  · intro hall
    have hinside : ∀ e ∈ log, Counts skip e → e.objId < skip + size total skip := fun e he hcounts =>
      Int.not_le.mp fun hle => Int.not_le.mpr (hall e he hcounts) ((hsize e hcounts).mp hle)
    obtain ⟨timestamps, hread, hshows⟩ := hok hinside
    have harray : ∀ tag ∈ knownTags, (timestamps.get? tag).getD [] = stampsFrom tag total skip log := by
      intro tag htag
      rw [hshows tag, if_pos htag]
      rfl
    have hlength : ∀ tag tag', (array (stampsFrom tag total skip log)).length =
        (array (stampsFrom tag' total skip log)).length := by
      intro tag tag'
      rw [stampsFrom_length, stampsFrom_length]
    have hsamples := difference_length tagUdlGetStart tagUdlGetEnd total skip log
    rw [difference] at hsamples
    rw [latencies, readTimestamps, hread]
    show (Except.mapError _ (sub _ _) >>= fun udlGetLat => Except.mapError _ (sub _ _) >>= fun udlWaitLat => _) = _
    rw [harray _ (by decide), harray _ (by decide), harray _ (by decide), sub_of_length_eq (hlength _ _),
      sub_of_length_eq (hlength _ _)]
    show (totalTime _ _ >>= fun time => throughputOf (List.length _) time >>= fun throughput => _) = _
    rw [hsamples]
    rfl

/-! ### What is in a log -/

/-- The latest time of a get of this number. -/
def Newest (calls : List Call) (time : Call → Int) (number v : Int) : Prop :=
  (∃ c ∈ calls, c.objId = number ∧ time c = v) ∧ ∀ c ∈ calls, c.objId = number → time c ≤ v

theorem Newest.latest {calls : List Call} {time : Call → Int} {number v : Int}
    (h : Newest calls time number v) : Microbenchmark.latest calls time number = v := by
  have hmax : ((calls.filter fun c => c.objId = number).map time).max? = some v := by
    rw [List.max?_eq_some_iff]
    obtain ⟨⟨c, hc, hnumber, rfl⟩, hall⟩ := h
    refine ⟨List.mem_map_of_mem (List.mem_filter.mpr ⟨hc, decide_eq_true hnumber⟩), fun t ht => ?_⟩
    obtain ⟨c', hc', rfl⟩ := List.mem_map.mp ht
    obtain ⟨hmem, hnumber'⟩ := List.mem_filter.mp hc'
    exact hall c' hmem (of_decide_eq_true hnumber')
  rw [Microbenchmark.latest, hmax]
  rfl

theorem Newest.isLast_iff {calls : List Call} {time : Call → Int} {number v : Int}
    (h : Newest calls time number v) {c : Call} (hc : c ∈ calls) (hnumber : c.objId = number) :
    IsLast calls time c ↔ time c = v := by
  constructor
  · intro hlast
    obtain ⟨c', hc', hnumber', rfl⟩ := h.1
    exact le_antisymm (h.2 c hc hnumber) (hlast c' hc' (hnumber'.trans hnumber.symm))
  · intro hv c' hc' hnumber'
    rw [hv]
    exact h.2 c' hc' (hnumber'.trans hnumber)

/-- Each get logs one event with the tag, at this time. -/
def Logs (tag : Int) (time : Call → Int) : Prop :=
  ∀ (c : Call) (number : Int), stamps tag number c.events = if c.objId = number then [time c] else []

theorem logs_getStart : Logs tagUdlGetStart Call.getStart := by
  intro c number
  by_cases h : c.objId = number <;>
    simp [stamps, Call.events, tltUdlGet, tagUdlGetStart, h]

theorem logs_getEnd : Logs tagUdlGetEnd Call.getEnd := by
  intro c number
  by_cases h : c.objId = number <;>
    simp [stamps, Call.events, tltUdlGet, tagUdlGetEnd, h]

theorem logs_waitEnd : Logs tagUdlWaitEnd Call.waitEnd := by
  intro c number
  by_cases h : c.objId = number <;>
    simp [stamps, Call.events, tltUdlGet, tagUdlWaitEnd, h]

theorem stamps_calls {tag : Int} {time : Call → Int} (h : Logs tag time) (number : Int) (calls : List Call) :
    stamps tag number (calls.flatMap Call.events) = (calls.filter fun c => c.objId = number).map time := by
  induction calls with
  | nil => rfl
  | cons c calls ih =>
    have happend : stamps tag number (c.events ++ calls.flatMap Call.events) =
        stamps tag number c.events ++ stamps tag number (calls.flatMap Call.events) := by
      simp [stamps]
    rw [List.flatMap_cons, happend, ih, h c number, List.filter_cons]
    by_cases hc : c.objId = number <;> simp [hc]

/-- A difference of thousandths is right when the other end is. -/
theorem sub_thousandth_iff (a b b' : Int) :
    (b : ℚ) / 1000 - a / 1000 = b' / 1000 - a / 1000 ↔ b = b' := by
  rw [sub_left_inj, div_left_inj' (by norm_num), Int.cast_inj]

section Log
variable {requests : List Request} {others log : List Event}
variable (hlog : Interleaves (requests.map Request.events ++ [others]) log)
include hlog

theorem log_perm : log.Perm ((requests.flatMap Request.calls).flatMap Call.events ++ others) := by
  have hperm := hlog.perm_others
  have hevents : requests.flatMap Request.events = (requests.flatMap Request.calls).flatMap Call.events :=
    List.flatMap_assoc.symm
  rwa [hevents] at hperm

theorem exists_event {c : Call} (hc : c ∈ requests.flatMap Request.calls) :
    ∃ e ∈ log, e.tag ∈ knownTags ∧ e.objId = c.objId := by
  have htag : tltUdlGet 1 ∈ knownTags := by decide
  refine ⟨⟨tltUdlGet 1, c.nodeId, c.objId, c.getStart⟩, ?_, htag, rfl⟩
  rw [(log_perm hlog).mem_iff]
  exact List.mem_append_left _ (List.mem_flatMap.mpr ⟨c, hc, List.mem_cons_self ..⟩)

variable (hothers : ∀ e ∈ others, e.tag ∉ knownTags)
include hothers

/-- An event that counts is one of a get. -/
theorem exists_call {e : Event} (he : e ∈ log) (htag : e.tag ∈ knownTags) :
    ∃ c ∈ requests.flatMap Request.calls, c.objId = e.objId := by
  rw [(log_perm hlog).mem_iff, List.mem_append] at he
  rcases he with he | he
  · obtain ⟨c, hc, hevent⟩ := List.mem_flatMap.mp he
    refine ⟨c, hc, ?_⟩
    simp only [Call.events, List.mem_cons, List.not_mem_nil, or_false] at hevent
    rcases hevent with rfl | rfl | rfl <;> rfl
  · exact absurd htag (hothers e he)

theorem mem_stamps {tag : Int} (htag : tag ∈ knownTags) {time : Call → Int} (h : Logs tag time)
    (number v : Int) :
    v ∈ stamps tag number log ↔ ∃ c ∈ requests.flatMap Request.calls, c.objId = number ∧ time c = v := by
  have hperm := ((log_perm hlog).filter fun e => e.tag = tag ∧ e.objId = number).map Event.timestamp
  have hnone : (others.filter fun e => e.tag = tag ∧ e.objId = number) = [] := by
    rw [List.filter_eq_nil_iff]
    intro e he hmatch
    exact hothers e he ((of_decide_eq_true hmatch).1 ▸ htag)
  rw [List.filter_append, hnone, List.append_nil] at hperm
  have hcalls := stamps_calls h number (requests.flatMap Request.calls)
  rw [stamps] at hcalls
  rw [hcalls] at hperm
  rw [stamps, hperm.mem_iff]
  simp only [List.mem_map, List.mem_filter, decide_eq_true_eq, and_assoc]

variable (htime : log.Pairwise fun e e' => e.timestamp ≤ e'.timestamp)
include htime

/-- What comes last in the log is the latest. -/
theorem newest_lastStamp {tag : Int} (htag : tag ∈ knownTags) {time : Call → Int} (h : Logs tag time)
    {skip : Int} {i : Nat} (hi : ∃ c ∈ requests.flatMap Request.calls, c.objId = skip + i) :
    Newest (requests.flatMap Request.calls) time (skip + i) (lastStamp skip (fun _ _ => 0) log tag i) := by
  have hmem := mem_stamps hlog hothers htag h (skip + i)
  have hsorted : (stamps tag (skip + i) log).Pairwise (· ≤ ·) := List.pairwise_map.mpr (htime.filter _)
  obtain ⟨c, hc, hnumber⟩ := hi
  have hne : stamps tag (skip + i) log ≠ [] := List.ne_nil_of_mem ((hmem (time c)).mpr ⟨c, hc, hnumber, rfl⟩)
  obtain ⟨v, hv⟩ := Option.ne_none_iff_exists'.mp (mt List.getLast?_eq_none_iff.mp hne)
  obtain ⟨before, hbefore⟩ := List.getLast?_eq_some_iff.mp hv
  rw [lastStamp, hv, Option.getD_some]
  refine ⟨(hmem v).mp (List.mem_of_getLast? hv), fun c' hc' hnumber' => ?_⟩
  have hin := (hmem (time c')).mpr ⟨c', hc', hnumber', rfl⟩
  rw [hbefore] at hin hsorted
  rcases List.mem_append.mp hin with hin | hin
  · exact (List.pairwise_append.mp hsorted).2.2 _ hin v (List.mem_singleton_self v)
  · exact le_of_eq (List.mem_singleton.mp hin)

/-- For a get that began last, the latencies are its own when it ended last and was answered last. -/
theorem entry_iff {total skip : Int} {i : Nat} (hi : i < size total skip) {c : Call}
    (hc : c ∈ requests.flatMap Request.calls) (hnumber : c.objId = skip + i)
    (hlast : IsLast (requests.flatMap Request.calls) Call.getStart c) :
    (difference tagUdlGetStart tagUdlGetEnd total skip log)[i]? = some c.getLat ∧
        (difference tagUdlGetEnd tagUdlWaitEnd total skip log)[i]? = some c.waitLat ↔
      IsLast (requests.flatMap Request.calls) Call.getEnd c ∧
        IsLast (requests.flatMap Request.calls) Call.waitEnd c := by
  have hstart := newest_lastStamp hlog hothers htime (by decide) logs_getStart ⟨c, hc, hnumber⟩
  have hend := newest_lastStamp hlog hothers htime (by decide) logs_getEnd ⟨c, hc, hnumber⟩
  have hanswer := newest_lastStamp hlog hothers htime (by decide) logs_waitEnd ⟨c, hc, hnumber⟩
  rw [difference_getElem _ _ log hi, difference_getElem _ _ log hi, Option.some_inj, Option.some_inj,
    hend.isLast_iff hc hnumber, hanswer.isLast_iff hc hnumber, Call.getLat, Call.waitLat,
    ← (hstart.isLast_iff hc hnumber).mp hlast, sub_thousandth_iff, eq_comm]
  refine and_congr_right fun hgetEnd => ?_
  rw [← hgetEnd, sub_thousandth_iff, eq_comm]

/-- A place in the arrays has the latest time of its number. -/
theorem lastStamp_eq_latest {tag : Int} (htag : tag ∈ knownTags) {time : Call → Int} (h : Logs tag time)
    (skip : Int) (i : Nat) :
    lastStamp skip (fun _ _ => 0) log tag i =
      latest (requests.flatMap Request.calls) time (skip + i) := by
  by_cases hi : ∃ c ∈ requests.flatMap Request.calls, c.objId = skip + i
  · exact (newest_lastStamp hlog hothers htime htag h hi).latest.symm
  · have hstamps : stamps tag (skip + i) log = [] := by
      rw [List.eq_nil_iff_forall_not_mem]
      intro v hv
      obtain ⟨c, hc, hnumber, _⟩ := (mem_stamps hlog hothers htag h (skip + i) v).mp hv
      exact hi ⟨c, hc, hnumber⟩
    have hcalls : ((requests.flatMap Request.calls).filter fun c => c.objId = skip + i) = [] := by
      rw [List.filter_eq_nil_iff]
      exact fun c hc hnumber => hi ⟨c, hc, of_decide_eq_true hnumber⟩
    rw [lastStamp, hstamps, latest, hcalls]
    rfl

variable (logger : Logger) (hfits : ∀ e ∈ log, Fits e)
include hfits

omit hothers htime in
/-- Without arrays, or with a number that has no place in them, the script fails. -/
theorem latencies_outside {total skip : Int}
    (h : total ≤ skip ∨ ∃ c ∈ requests.flatMap Request.calls, skip ≤ c.objId ∧ total ≤ c.objId) :
    latencies (logger.file log) total skip = .error (.python .indexError) := by
  obtain ⟨herror, hok⟩ := latencies_file logger log hfits total skip
  by_cases hout : ∃ e ∈ log, Counts skip e ∧ total ≤ e.objId
  · exact herror hout
  · have hnil : total ≤ skip := by
      rcases h with hnil | ⟨c, hc, hskip, htotal⟩
      · exact hnil
      · obtain ⟨e, he, htag, hnumber⟩ := exists_event hlog hc
        exact absurd ⟨e, he, ⟨htag, hnumber ▸ hskip⟩, hnumber ▸ htotal⟩ hout
    rw [hok fun e he hcounts => Int.not_le.mp fun hle => hout ⟨e, he, hcounts, hle⟩, totalTime_nil hnil]
    rfl

/-- Otherwise it fails when no time has passed, and only then. -/
theorem latencies_inside {total skip : Int} (hlt : skip < total)
    (hbelow : ∀ c ∈ requests.flatMap Request.calls, skip ≤ c.objId → c.objId < total) :
    latencies (logger.file log) total skip =
      if elapsed (requests.flatMap Request.calls) total skip = 0 then .error .zeroDivisionError
      else .ok (computed total skip log
        (size total skip / elapsed (requests.flatMap Request.calls) total skip * 1000000)) := by
  have hall : ∀ e ∈ log, Counts skip e → e.objId < total := by
    intro e he hcounts
    obtain ⟨c, hc, hnumber⟩ := exists_call hlog hothers he hcounts.1
    rw [← hnumber]
    exact hbelow c hc (by rw [hnumber]; exact hcounts.2)
  have hlast : skip + ((size total skip - 1 : Nat) : Int) = total - 1 := by
    unfold size
    omega
  have hfirst : skip + ((0 : Nat) : Int) = skip := Int.add_zero skip
  rw [(latencies_file logger log hfits total skip).2 hall, totalTime_stamps hlt,
    lastStamp_eq_latest hlog hothers htime (by decide) logs_waitEnd,
    lastStamp_eq_latest hlog hothers htime (by decide) logs_getStart, hlast, hfirst]
  show (throughputOf (size total skip) (elapsed _ total skip) >>= fun throughput => _) = _
  unfold throughputOf
  split <;> rfl

end Log

/-- What the arrays hold is right exactly when, for each number, some get is the last in every
respect. -/
theorem computed_right_iff {requests : List Request} {others log : List Event}
    (hothers : ∀ e ∈ others, e.tag ∉ knownTags)
    (hlog : Interleaves (requests.map Request.events ++ [others]) log)
    (htime : log.Pairwise fun e e' => e.timestamp ≤ e'.timestamp) {total skip : Int}
    (hbelow : ∀ c ∈ requests.flatMap Request.calls, skip ≤ c.objId → c.objId < total) :
    RightFor (requests.flatMap Request.calls) total skip (computed total skip log
        (size total skip / elapsed (requests.flatMap Request.calls) total skip * 1000000)) ↔
      Served (requests.flatMap Request.calls) total skip := by
  constructor
  · intro hright
    refine ⟨hbelow, fun number hskip htotal => ?_⟩
    obtain ⟨i, rfl⟩ : ∃ i : Nat, number = skip + i := ⟨(number - skip).toNat, by omega⟩
    have hi : i < size total skip := by
      unfold size
      omega
    obtain ⟨c, hc, hnumber, hlast, hget, hwait, -⟩ := hright.entries i hi
    exact ⟨c, hc, hnumber, hlast, (entry_iff hlog hothers htime hi hc hnumber hlast).mp ⟨hget, hwait⟩⟩
  · intro h
    have htotal_length : (List.zipWith (· + ·) (difference tagUdlGetStart tagUdlGetEnd total skip log)
        (difference tagUdlGetEnd tagUdlWaitEnd total skip log)).length = size total skip := by
      rw [List.length_zipWith, difference_length, difference_length, Nat.min_self]
    refine ⟨difference_length .., difference_length .., htotal_length, fun i hi => ?_, rfl⟩
    obtain ⟨c, hc, hnumber, hlast, hlastEnd, hlastWait⟩ :=
      h.last (skip + i) (by omega) (by unfold size at hi; omega)
    obtain ⟨hget, hwait⟩ :=
      (entry_iff hlog hothers htime hi hc hnumber hlast).mpr ⟨hlastEnd, hlastWait⟩
    refine ⟨c, hc, hnumber, hlast, hget, hwait, ?_⟩
    rw [computed, List.getElem?_zipWith, hget, hwait]

theorem elapsed_eq_zero_iff (calls : List Call) (total skip : Int) :
    elapsed calls total skip = 0 ↔ latest calls Call.waitEnd (total - 1) = latest calls Call.getStart skip := by
  rw [elapsed, sub_eq_zero, div_left_inj' (by norm_num), Int.cast_inj]

/-- There are no numbers, or a get has one that is too large. -/
theorem outside_iff {calls : List Call} {total skip : Int} :
    (total ≤ skip ∨ ∃ c ∈ calls, skip ≤ c.objId ∧ total ≤ c.objId) ↔
      ¬ (skip < total ∧ ∀ c ∈ calls, skip ≤ c.objId → c.objId < total) := by
  rw [not_and_or, Int.not_lt]
  push Not
  rfl

/-- **The script computes latencies of gets exactly when, for each number from `skip` to
`total`, some get begins last, ends last and is answered last**, and the last answer of the last
number comes at another time than the last start of the first, however many requests are in the
log and whatever else is logged between their events. It fails with an `IndexError` when there
are no such numbers or a get has one from `total` on, and with a `ZeroDivisionError` when no
time has passed. -/
theorem microbenchmark_right_iff (logger : Logger) (requests : List Request) (others log : List Event)
    (hothers : ∀ e ∈ others, e.tag ∉ knownTags)
    (hlog : Interleaves (requests.map Request.events ++ [others]) log)
    (htime : log.Pairwise fun e e' => e.timestamp ≤ e'.timestamp) (hfits : ∀ e ∈ log, Fits e)
    (total skip : Int) :
    ((∃ lat, latencies (logger.file log) total skip = .ok lat ∧
          RightFor (requests.flatMap Request.calls) total skip lat) ↔
        skip < total ∧ Served (requests.flatMap Request.calls) total skip ∧
          latest (requests.flatMap Request.calls) Call.waitEnd (total - 1) ≠
            latest (requests.flatMap Request.calls) Call.getStart skip) ∧
      (latencies (logger.file log) total skip = .error (.python .indexError) ↔
        total ≤ skip ∨ ∃ c ∈ requests.flatMap Request.calls, skip ≤ c.objId ∧ total ≤ c.objId) ∧
      (latencies (logger.file log) total skip = .error .zeroDivisionError ↔
        skip < total ∧ (∀ c ∈ requests.flatMap Request.calls, skip ≤ c.objId → c.objId < total) ∧
          latest (requests.flatMap Request.calls) Call.waitEnd (total - 1) =
            latest (requests.flatMap Request.calls) Call.getStart skip) := by
  rw [← elapsed_eq_zero_iff, Ne, ← elapsed_eq_zero_iff, outside_iff]
  by_cases hin : skip < total ∧ ∀ c ∈ requests.flatMap Request.calls, skip ≤ c.objId → c.objId < total
  · obtain ⟨hlt, hbelow⟩ := hin
    have hright := computed_right_iff hothers hlog htime hbelow
    rw [latencies_inside hlog hothers htime logger hfits hlt hbelow]
    by_cases hzero : elapsed (requests.flatMap Request.calls) total skip = 0
    · rw [if_pos hzero]
      refine ⟨⟨fun h => ?_, fun h => absurd hzero h.2.2⟩, ⟨fun h => ?_, fun h => absurd ⟨hlt, hbelow⟩ h⟩,
        ⟨fun _ => ⟨hlt, hbelow, hzero⟩, fun _ => rfl⟩⟩
      · obtain ⟨lat, hlat, _⟩ := h
        cases hlat
      · cases h
    · rw [if_neg hzero]
      refine ⟨⟨fun h => ?_, fun h => ⟨_, rfl, hright.mpr h.2.1⟩⟩,
        ⟨fun h => ?_, fun h => absurd ⟨hlt, hbelow⟩ h⟩, ⟨fun h => ?_, fun h => absurd h.2.2 hzero⟩⟩
      · obtain ⟨lat, hlat, hlatright⟩ := h
        obtain rfl := Except.ok.inj hlat
        exact ⟨hlt, hright.mp hlatright, hzero⟩
      · cases h
      · cases h
  · rw [latencies_outside hlog logger hfits (outside_iff.mpr hin)]
    refine ⟨⟨fun h => ?_, fun h => absurd ⟨h.1, h.2.1.below⟩ hin⟩, ⟨fun _ => hin, fun _ => rfl⟩,
      ⟨fun h => ?_, fun h => absurd ⟨h.1, h.2.1⟩ hin⟩⟩
    · obtain ⟨lat, hlat, _⟩ := h
      cases hlat
    · cases h

/-! ### One request -/

theorem mem_calls {r : Request} {c : Call} :
    c ∈ r.calls ↔ ∃ (i : Nat) (t : Times), r.gets[i]? = some t ∧
      c = ⟨r.nodeId, i, t.getStart, t.getEnd, t.waitEnd⟩ := by
  constructor
  · intro hc
    obtain ⟨⟨t, i⟩, hi, rfl⟩ := List.mem_map.mp hc
    exact ⟨i, t, List.mem_zipIdx_iff_getElem?.mp hi, rfl⟩
  · intro h
    obtain ⟨i, t, hi, rfl⟩ := h
    exact List.mem_map.mpr ⟨(t, i), List.mem_zipIdx_iff_getElem?.mpr hi, rfl⟩

/-- The gets of one request have numbers of their own. -/
theorem served_single (r : Request) {skip : Int} (hskip : 0 ≤ skip) : Served r.calls r.gets.length skip := by
  have hlast : ∀ c ∈ r.calls, ∀ time : Call → Int, IsLast r.calls time c := by
    intro c hc time c' hc' hnumber
    obtain ⟨i, t, hi, rfl⟩ := mem_calls.mp hc
    obtain ⟨j, u, hj, rfl⟩ := mem_calls.mp hc'
    obtain rfl : j = i := Int.ofNat.inj hnumber
    rw [hi] at hj
    obtain rfl := Option.some.inj hj
    exact le_refl _
  refine ⟨fun c hc _ => ?_, fun number hfrom hto => ?_⟩
  · obtain ⟨i, t, hi, rfl⟩ := mem_calls.mp hc
    exact Int.ofNat_lt.mpr (List.getElem?_eq_some_iff.mp hi).1
  · obtain ⟨i, rfl⟩ := Int.eq_ofNat_of_zero_le (hskip.trans hfrom)
    have hi : r.gets[i]? = some r.gets[i] := List.getElem?_eq_getElem (Int.ofNat_lt.mp hto)
    have hc := mem_calls.mpr ⟨i, _, hi, rfl⟩
    exact ⟨_, hc, rfl, hlast _ hc _, hlast _ hc _, hlast _ hc _⟩

/-- The logger of the other script writes the objects as well. -/
def plainLogger : Logger where
  toLogger := Debug.plainLogger
  objId e := by
    show (split (Debug.plainLine e))[2]? = _
    rw [Debug.split_plainLine]
    rfl

def twoGets : Request := ⟨0, [⟨0, 1, 2⟩, ⟨3, 5, 9⟩]⟩

/-- An event of another kind comes in between. -/
def otherEvent : Event := ⟨1001, 0, 7, 4⟩

def twoGetsLog : List Event :=
  [⟨8001, 0, 0, 0⟩, ⟨8002, 0, 0, 1⟩, ⟨8003, 0, 0, 2⟩, ⟨8001, 0, 1, 3⟩, otherEvent, ⟨8002, 0, 1, 5⟩,
    ⟨8003, 0, 1, 9⟩]

theorem twoGets_interleaves : Interleaves [twoGets.events, [otherEvent]] twoGetsLog :=
  .left (.left (.left (.left (.right (.left (.left .nil))))))

/-- With room for one get only, the second one has no place. -/
theorem twoGets_right :
    (∃ lat, latencies (plainLogger.file twoGetsLog) 2 0 = .ok lat ∧ RightFor twoGets.calls 2 0 lat) ∧
      latencies (plainLogger.file twoGetsLog) 1 0 = .error (.python .indexError) := by
  have hright := fun total skip => microbenchmark_right_iff plainLogger [twoGets] [otherEvent] twoGetsLog
    (by decide) twoGets_interleaves (by decide) (by unfold Fits; decide) total skip
  have hcalls : [twoGets].flatMap Request.calls = twoGets.calls := List.flatMap_singleton ..
  simp only [hcalls] at hright
  exact ⟨(hright 2 0).1.mpr ⟨by decide, served_single twoGets (by decide), by decide⟩,
    (hright 1 0).2.1.mpr (.inr (by decide))⟩

end CascadePlayground.Microbenchmark
