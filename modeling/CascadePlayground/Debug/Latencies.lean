import CascadePlayground.Affinity.Results
import CascadePlayground.Interleaving
import CascadePlayground.Pairing
import Mathlib.Algebra.Order.Field.Rat
import Mathlib.Data.Rat.Cast.Order

/-! The latencies of the debug UDL.

The observer of `debug_udl.cpp` logs three events for each object: before the get,
after it, and when the reply is there. Several workers run it at the same time, and
their events stand in the log as they come. `get_latencies.py` gathers the
timestamps of each kind in the order of the log and subtracts the first of one kind
from the first of the next, the second from the second and so on, without looking
at the objects. What it computes are the latencies of the objects exactly when no
call overtakes another one (`latencies_right_iff`). -/
namespace CascadePlayground.Debug
open Text Pairing Interleaving
open Affinity (PyError intField intField_integer)

/-! ### The log -/

/-- `TLT_UDLGET` -/
def tltUdlGet (x : Int) : Int := 8000 + x

structure Event where
  tag : Int
  nodeId : Int
  objId : Int
  timestamp : Int
deriving DecidableEq, Repr

/-- A call of the observer, with the times at which it logs. -/
structure Call where
  nodeId : Int
  objId : Int
  getStart : Int
  getEnd : Int
  waitEnd : Int
deriving DecidableEq, Repr

/-- What `DebugObserver::operator()` logs. -/
def Call.events (c : Call) : List Event :=
  [⟨tltUdlGet 1, c.nodeId, c.objId, c.getStart⟩, ⟨tltUdlGet 2, c.nodeId, c.objId, c.getEnd⟩,
    ⟨tltUdlGet 3, c.nodeId, c.objId, c.waitEnd⟩]

/-- How `global_timestamp_logger` writes an event: on a line, with the tag in front and
the timestamp as the fourth word. -/
structure Logger where
  line : Event → List Char
  newline : ∀ e, '\n' ∉ line e ∧ '\r' ∉ line e
  tag : ∀ e, (split (line e))[0]? = some (integer e.tag)
  timestamp : ∀ e, (split (line e))[3]? = some (integer e.timestamp)

def Logger.file (logger : Logger) (log : List Event) : List Char :=
  log.flatMap fun e => logger.line e ++ ['\n']

/-- A log is read as it has been written. -/
theorem Logger.lines_file (logger : Logger) (log : List Event) :
    lines (universalNewlines (logger.file log)) = log.map fun e => logger.line e ++ ['\n'] := by
  have hchars : ∀ l ∈ log.map logger.line, '\n' ∉ l ∧ '\r' ∉ l := by
    intro l hl
    obtain ⟨e, _, rfl⟩ := List.mem_map.mp hl
    exact logger.newline e
  have hread := lines_written hchars
  rw [List.flatMap_map, List.map_map] at hread
  exact hread

/-! ### The script -/

def tagUdlGetStart : Int := 8001
def tagUdlGetEnd : Int := 8002
def tagUdlWaitEnd : Int := 8003

/-- The dictionary of the script, which has these three keys. -/
structure Timestamps where
  getStart : List Int
  getEnd : List Int
  waitEnd : List Int
deriving DecidableEq, Repr

def Timestamps.append (t : Timestamps) (tag value : Int) : Timestamps :=
  if tag = tagUdlGetStart then {t with getStart := t.getStart ++ [value]}
  else if tag = tagUdlGetEnd then {t with getEnd := t.getEnd ++ [value]}
  else if tag = tagUdlWaitEnd then {t with waitEnd := t.waitEnd ++ [value]}
  else t

def readLine (t : Timestamps) (line : List Char) : Except PyError Timestamps := do
  let fields := split line
  let tag ← intField fields 0
  let value ← intField fields 3
  .ok (t.append tag value)

def readTimestamps (file : List Char) : Except PyError Timestamps :=
  (lines (universalNewlines file)).foldlM readLine ⟨[], [], []⟩

/-- `np.array(timestamps)/1e3` -/
def array (timestamps : List Int) : List ℚ := timestamps.map fun (t : Int) => (t : ℚ) / 1000

/-- The difference of two arrays. One with a single element goes with all of the other. -/
def sub : List ℚ → List ℚ → Except PyError (List ℚ)
  | a, [y] => .ok (a.map fun x => x - y)
  | [x], b => .ok (b.map fun y => x - y)
  | a, b => if a.length = b.length then .ok (List.zipWith (· - ·) a b) else .error .valueError

structure Latencies where
  get : List ℚ
  wait : List ℚ
deriving DecidableEq, Repr

/-- The script, up to the throughput. -/
def latencies (file : List Char) : Except PyError Latencies := do
  let timestamps ← readTimestamps file
  let udlGetStart := array timestamps.getStart
  let udlGetEnd := array timestamps.getEnd
  let udlWaitEnd := array timestamps.waitEnd
  let udlGetLat ← sub udlGetEnd udlGetStart
  let udlWaitLat ← sub udlWaitEnd udlGetEnd
  .ok ⟨udlGetLat, udlWaitLat⟩

/-- `np.mean` -/
def mean (l : List ℚ) : ℚ := l.sum / l.length

/-- The square of `np.std`. -/
def variance (l : List ℚ) : ℚ := mean (l.map fun x => (x - mean l) ^ 2)

/-! ### What the latencies are -/

def Call.getLat (c : Call) : ℚ := c.getEnd / 1000 - c.getStart / 1000
def Call.waitLat (c : Call) : ℚ := c.waitEnd / 1000 - c.getEnd / 1000

/-- The lists are those of the calls, up to their order, and so are their mean and variance. -/
structure RightFor (calls : List Call) (lat : Latencies) : Prop where
  get : lat.get.Perm (calls.map Call.getLat)
  wait : lat.wait.Perm (calls.map Call.waitLat)
  getMean : mean lat.get = mean (calls.map Call.getLat)
  getVariance : variance lat.get = variance (calls.map Call.getLat)
  waitMean : mean lat.wait = mean (calls.map Call.waitLat)
  waitVariance : variance lat.wait = variance (calls.map Call.waitLat)

/-- The get that begins first ends first, and the wait after it. -/
structure InOrder (calls : List Call) : Prop where
  get : ∀ a ∈ calls, ∀ b ∈ calls, a.getStart < b.getStart → a.getEnd ≤ b.getEnd
  wait : ∀ a ∈ calls, ∀ b ∈ calls, a.getEnd < b.getEnd → a.waitEnd ≤ b.waitEnd

/-! ### What is read from a log -/

/-- The timestamps of one kind. -/
def column (tag : Int) (log : List Event) : List Int :=
  (log.filter fun e => e.tag = tag).map Event.timestamp

theorem column_cons (tag : Int) (e : Event) (log : List Event) :
    column tag (e :: log) = (if e.tag = tag then [e.timestamp] else []) ++ column tag log := by
  by_cases h : e.tag = tag
  · simp [column, h]
  · simp [column, h]

theorem append_columns (t : Timestamps) (e : Event) :
    t.append e.tag e.timestamp =
      ⟨t.getStart ++ (if e.tag = tagUdlGetStart then [e.timestamp] else []),
        t.getEnd ++ (if e.tag = tagUdlGetEnd then [e.timestamp] else []),
        t.waitEnd ++ (if e.tag = tagUdlWaitEnd then [e.timestamp] else [])⟩ := by
  unfold Timestamps.append
  by_cases h1 : e.tag = tagUdlGetStart
  · simp [h1, tagUdlGetStart, tagUdlGetEnd, tagUdlWaitEnd]
  · by_cases h2 : e.tag = tagUdlGetEnd
    · simp [h2, tagUdlGetStart, tagUdlGetEnd, tagUdlWaitEnd]
    · by_cases h3 : e.tag = tagUdlWaitEnd
      · simp [h3, tagUdlGetStart, tagUdlGetEnd, tagUdlWaitEnd]
      · simp [h1, h2, h3]

theorem readLine_line (logger : Logger) (t : Timestamps) (e : Event) :
    readLine t (logger.line e ++ ['\n']) = .ok (t.append e.tag e.timestamp) := by
  rw [readLine, split_newline, intField_integer 0 e.tag (logger.tag e),
    intField_integer 3 e.timestamp (logger.timestamp e)]
  rfl

theorem foldlM_log (logger : Logger) (log : List Event) (t : Timestamps) :
    (log.map fun e => logger.line e ++ ['\n']).foldlM readLine t =
      .ok ⟨t.getStart ++ column tagUdlGetStart log, t.getEnd ++ column tagUdlGetEnd log,
        t.waitEnd ++ column tagUdlWaitEnd log⟩ := by
  induction log generalizing t with
  | nil => simp [column]; rfl
  | cons e log ih =>
    rw [List.map_cons, List.foldlM_cons, readLine_line, append_columns]
    refine (ih _).trans ?_
    simp only [column_cons, List.append_assoc]

theorem readTimestamps_file (logger : Logger) (log : List Event) :
    readTimestamps (logger.file log) =
      .ok ⟨column tagUdlGetStart log, column tagUdlGetEnd log, column tagUdlWaitEnd log⟩ := by
  rw [readTimestamps, logger.lines_file]
  exact foldlM_log logger log ⟨[], [], []⟩

/-! ### What is computed -/

theorem sub_of_length_eq {a b : List ℚ} (h : a.length = b.length) :
    sub a b = .ok (List.zipWith (· - ·) a b) := by
  unfold sub
  split
  · next y =>
    obtain ⟨x, rfl⟩ := List.length_eq_one_iff.mp h
    rfl
  · next x b =>
    obtain ⟨y, rfl⟩ := List.length_eq_one_iff.mp h.symm
    rfl
  · exact if_pos h

theorem mean_perm {l l' : List ℚ} (h : l.Perm l') : mean l = mean l' := by
  rw [mean, mean, h.sum_eq, h.length_eq]

theorem variance_perm {l l' : List ℚ} (h : l.Perm l') : variance l = variance l' := by
  rw [variance, variance, mean_perm h]
  exact mean_perm (h.map _)

theorem rightFor_iff {calls : List Call} {lat : Latencies} :
    RightFor calls lat ↔ lat.get.Perm (calls.map Call.getLat) ∧ lat.wait.Perm (calls.map Call.waitLat) := by
  constructor
  · intro h
    exact ⟨h.get, h.wait⟩
  · intro h
    obtain ⟨hget, hwait⟩ := h
    exact ⟨hget, hwait, mean_perm hget, variance_perm hget, mean_perm hwait, variance_perm hwait⟩

theorem array_pairwise {l : List Int} (h : l.Pairwise (· ≤ ·)) : (array l).Pairwise (· ≤ ·) := by
  refine h.map _ fun a b hab => ?_
  exact div_le_div_of_nonneg_right (Int.cast_le.mpr hab) (by decide)

theorem lt_iff_thousandth (a b : Int) : (a : ℚ) / 1000 < b / 1000 ↔ a < b := by
  rw [div_lt_div_iff_of_pos_right (by decide), Int.cast_lt]

theorem le_iff_thousandth (a b : Int) : (a : ℚ) / 1000 ≤ b / 1000 ↔ a ≤ b := by
  rw [div_le_div_iff_of_pos_right (by decide), Int.cast_le]

theorem column_getStart (c : Call) : column tagUdlGetStart c.events = [c.getStart] := rfl
theorem column_getEnd (c : Call) : column tagUdlGetEnd c.events = [c.getEnd] := rfl
theorem column_waitEnd (c : Call) : column tagUdlWaitEnd c.events = [c.waitEnd] := rfl

section Log
variable {calls : List Call} {log : List Event} (hlog : Interleaves (calls.map Call.events) log)
include hlog

/-- Each kind of timestamps has one for each call. -/
theorem column_perm {tag : Int} {time : Call → Int}
    (h : ∀ c : Call, column tag c.events = [time c]) : (column tag log).Perm (calls.map time) := by
  have hperm := (hlog.perm.filter fun e => e.tag = tag).map Event.timestamp
  have hcalls : column tag (calls.map Call.events).flatten = calls.map time := by
    rw [← List.flatMap_def, column, List.filter_flatMap, List.map_flatMap]
    have hone : ∀ c : Call, ((c.events.filter fun e => e.tag = tag).map Event.timestamp) = [time c] := h
    simp only [hone]
    exact List.map_eq_flatMap.symm
  rw [← hcalls]
  exact hperm

theorem column_length {tag : Int} {time : Call → Int} (h : ∀ c : Call, column tag c.events = [time c]) :
    (array (column tag log)).length = calls.length := by
  rw [array, List.length_map, (column_perm hlog h).length_eq, List.length_map]

theorem latencies_file (logger : Logger) :
    latencies (logger.file log) =
      .ok ⟨List.zipWith (· - ·) (array (column tagUdlGetEnd log)) (array (column tagUdlGetStart log)),
        List.zipWith (· - ·) (array (column tagUdlWaitEnd log)) (array (column tagUdlGetEnd log))⟩ := by
  have hstart := column_length hlog column_getStart
  have hend := column_length hlog column_getEnd
  have hwait := column_length hlog column_waitEnd
  rw [latencies, readTimestamps_file]
  show (sub _ _ >>= fun udlGetLat => sub _ _ >>= fun udlWaitLat => _) = _
  rw [sub_of_length_eq (hend.trans hstart.symm), sub_of_length_eq (hwait.trans hend.symm)]
  rfl

variable (htime : log.Pairwise fun e e' => e.timestamp ≤ e'.timestamp)
include htime

omit hlog in
theorem column_pairwise (tag : Int) : (array (column tag log)).Pairwise (· ≤ ·) := by
  apply array_pairwise
  exact List.pairwise_map.mpr (htime.filter _)

/-- The differences of two kinds are those of the calls, when no call overtakes another
between the one and the other. -/
theorem differences_iff {tag tag' : Int} {time time' : Call → Int}
    (h : ∀ c : Call, column tag c.events = [time c]) (h' : ∀ c : Call, column tag' c.events = [time' c]) :
    (List.zipWith (· - ·) (array (column tag' log)) (array (column tag log))).Perm
        (calls.map fun c => (time' c : ℚ) / 1000 - time c / 1000) ↔
      ∀ a ∈ calls, ∀ b ∈ calls, time a < time b → time' a ≤ time' b := by
  have hperm : ∀ {tag : Int} {time : Call → Int}, (∀ c : Call, column tag c.events = [time c]) →
      (array (column tag log)).Perm (calls.map fun c => (time c : ℚ) / 1000) := by
    intro tag time h
    have harray := (column_perm hlog h).map fun (t : Int) => (t : ℚ) / 1000
    rw [List.map_map] at harray
    exact harray
  rw [differences_perm_iff (column_pairwise htime tag) (hperm h) (column_pairwise htime tag') (hperm h')]
  simp only [lt_iff_thousandth, le_iff_thousandth]

end Log

/-- **The script computes the latencies of the objects exactly when no call overtakes
another**, whatever the workers do at the same time. -/
theorem latencies_right_iff (logger : Logger) (calls : List Call) (log : List Event)
    (hlog : Interleaves (calls.map Call.events) log)
    (htime : log.Pairwise fun e e' => e.timestamp ≤ e'.timestamp) :
    (∃ lat, latencies (logger.file log) = .ok lat ∧ RightFor calls lat) ↔ InOrder calls := by
  have hget := differences_iff hlog htime column_getStart column_getEnd
  have hwait := differences_iff hlog htime column_getEnd column_waitEnd
  constructor
  · intro h
    obtain ⟨lat, hlat, hright⟩ := h
    rw [latencies_file hlog] at hlat
    obtain rfl := Except.ok.inj hlat
    exact ⟨hget.mp hright.get, hwait.mp hright.wait⟩
  · intro h
    exact ⟨_, latencies_file hlog logger, rightFor_iff.mpr ⟨hget.mpr h.get, hwait.mpr h.wait⟩⟩

/-! ### Two calls -/

def plainLine (e : Event) : List Char :=
  spaced [integer e.tag, integer e.nodeId, integer e.objId] (integer e.timestamp)

theorem split_plainLine (e : Event) :
    split (plainLine e) = [integer e.tag, integer e.nodeId, integer e.objId, integer e.timestamp] := by
  have hchars : ∀ z : Int, ∀ c ∈ integer z, isPySpace c = false := fun _ _ hc => isPySpace_integer hc
  have hwords : ∀ w ∈ [integer e.tag, integer e.nodeId, integer e.objId],
      w ≠ [] ∧ ∀ c ∈ w, isPySpace c = false := by
    simp only [List.forall_mem_cons]
    exact ⟨⟨integer_ne_nil _, hchars _⟩, ⟨integer_ne_nil _, hchars _⟩, ⟨integer_ne_nil _, hchars _⟩,
      fun w hw => absurd hw List.not_mem_nil⟩
  rw [plainLine, split_spaced hwords (integer_ne_nil _) (hchars _)]
  rfl

theorem notMem_plainLine {c : Char} (hblank : c ≠ ' ') (hminus : c ≠ '-') (hdigit : c.isDigit = false)
    (e : Event) : c ∉ plainLine e :=
  notMem_spaced hblank (by simp [notMem_integer hminus hdigit]) (notMem_integer hminus hdigit _)

/-- A logger that writes the four fields and nothing else. -/
def plainLogger : Logger where
  line := plainLine
  newline e := by
    constructor
    · exact notMem_plainLine (by decide) (by decide) rfl e
    · exact notMem_plainLine (by decide) (by decide) rfl e
  tag e := by rw [split_plainLine]; rfl
  timestamp e := by rw [split_plainLine]; rfl

/-- The second get begins before the first ends, and ends after it. -/
def overlapping : List Call := [⟨0, 1, 0, 2, 5⟩, ⟨0, 2, 1, 4, 6⟩]

def overlappingLog : List Event :=
  [⟨8001, 0, 1, 0⟩, ⟨8001, 0, 2, 1⟩, ⟨8002, 0, 1, 2⟩, ⟨8002, 0, 2, 4⟩, ⟨8003, 0, 1, 5⟩, ⟨8003, 0, 2, 6⟩]

theorem overlapping_interleaves : Interleaves (overlapping.map Call.events) overlappingLog :=
  .left (.right (.left (.right (.left (.right .nil)))))

theorem overlapping_right_iff :
    InOrder overlapping ∧
      ((∃ lat, latencies (plainLogger.file overlappingLog) = .ok lat ∧ RightFor overlapping lat) ↔
        InOrder overlapping) :=
  ⟨⟨by decide, by decide⟩,
    latencies_right_iff plainLogger overlapping overlappingLog overlapping_interleaves (by decide)⟩

/-- The second get begins after the first and ends before it. -/
def crossing : List Call := [⟨0, 1, 0, 10, 12⟩, ⟨0, 2, 1, 2, 3⟩]

def crossingLog : List Event :=
  [⟨8001, 0, 1, 0⟩, ⟨8001, 0, 2, 1⟩, ⟨8002, 0, 2, 2⟩, ⟨8003, 0, 2, 3⟩, ⟨8002, 0, 1, 10⟩, ⟨8003, 0, 1, 12⟩]

theorem crossing_interleaves : Interleaves (crossing.map Call.events) crossingLog :=
  .left (.right (.right (.right (.left (.left .nil)))))

/-- The mean is right all the same, the standard deviation is not. -/
theorem crossing_not_right :
    Interleaves (crossing.map Call.events) crossingLog ∧
      (crossingLog.Pairwise fun e e' => e.timestamp ≤ e'.timestamp) ∧
      latencies (plainLogger.file crossingLog) = .ok ⟨[2 / 1000, 9 / 1000], [1 / 1000, 2 / 1000]⟩ ∧
      crossing.map Call.getLat = [10 / 1000, 1 / 1000] ∧
      ¬∃ lat, latencies (plainLogger.file crossingLog) = .ok lat ∧ RightFor crossing lat := by
  have hlat : latencies (plainLogger.file crossingLog) =
      .ok ⟨[2 / 1000, 9 / 1000], [1 / 1000, 2 / 1000]⟩ := by
    rw [latencies_file crossing_interleaves]
    exact congrArg Except.ok (by decide +kernel)
  refine ⟨crossing_interleaves, by decide, hlat, by decide +kernel, ?_⟩
  intro h
  obtain ⟨lat, hok, hright⟩ := h
  rw [hlat] at hok
  obtain rfl := Except.ok.inj hok
  exact absurd hright.getVariance (by decide +kernel)

end CascadePlayground.Debug
