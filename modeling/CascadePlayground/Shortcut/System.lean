import CascadePlayground.Processes
import CascadePlayground.Text.Strings

/-! The test of the local get shortcut.

A client reads commands: `store` puts an object, and `check` puts a request, which
starts an upcall where the object is kept. The upcall gets the object and prints it.
Any number of clients and upcalls call the store at the same time; a client goes on with
its next command when its put has been answered.

An id says which command a put comes from. It is there for the record: no program looks
at it. -/
namespace CascadePlayground.Shortcut
open Text Program

/-! ### The commands -/

inductive Command where
  | store (key data : List Char)
  | check (key : List Char)
  /-- Anything else, which does nothing. -/
  | other
deriving DecidableEq, Repr

/-- What a line says. The text after the first blank is the argument, and the text after
the first blank of that is the data; without one, the data is the argument but for its
last character. -/
def parse (cmd : List Char) : Command :=
  match find cmd [' '] with
  | none => .other
  | some sep =>
    let op := cmd.take sep
    let arg := (cmd.drop (sep + 1)).take (cmd.length - 1)
    if op = "store".toList then
      match find arg [' '] with
      | none => .store arg (arg.take (arg.length - 1))
      | some sep2 => .store (arg.take sep2) ((arg.drop (sep2 + 1)).take (arg.length - 1))
    else if op = "check".toList then .check arg
    else .other

def clientStoreRequest : List Char := "/store".toList

def clientStoreCheck : List Char := "/check".toList

/-- The key of a stored object. -/
def storeKey (key : List Char) : List Char := clientStoreRequest ++ '/' :: key

/-- The key of every request. -/
def checkKey : List Char := clientStoreCheck ++ "/check".toList

/-- Where a command stands: in which client, and on which of its lines. -/
structure Id where
  client : Nat
  command : Nat
deriving DecidableEq, Repr

structure Put where
  id : Id
  key : List Char
  blob : List Char
deriving DecidableEq, Repr

/-- What a statement prints, and of the upcall for which request. How the terminal mixes
statements of several upcalls is left out. -/
structure Line where
  id : Id
  key : List Char
  value : List Char
deriving DecidableEq, Repr

/-- The bytes of a string, with the zero that ends it. -/
def bytes (s : List Char) : List Char := s ++ ['\x00']

/-- The string that begins where some bytes begin. -/
def cString (blob : List Char) : List Char := blob.takeWhile (· ≠ '\x00')

def Command.put (id : Id) : Command → Option Put
  | .store key data => some ⟨id, storeKey key, bytes data⟩
  | .check key => some ⟨id, checkKey, bytes (storeKey key)⟩
  | .other => none

/-! ### The programs -/

inductive Op where
  | put (p : Put)
  | get (key : List Char)
  | print (line : Line)

def Reply : Op → Type
  | .put _ => Unit
  | .get _ => Option (List Char)
  | .print _ => Unit

/-- The puts, the last one first, and the lines that have been printed. -/
structure Shared where
  puts : List Put
  output : List Line

/-- The last put under the key. -/
def current (puts : List Put) (key : List Char) : Option Put := puts.find? fun p => p.key = key

def act : (op : Op) → Shared → Reply op × Shared
  | .put p, s => ((), {s with puts := p :: s.puts})
  | .get key, s => ((current s.puts key).map Put.blob, s)
  | .print line, s => ((), {s with output := s.output ++ [line]})

/-- What a process is. -/
inductive Origin where
  | client (client : Nat)
  | upcall (id : Id)
deriving DecidableEq, Repr

/-- How a client never comes to its end: there is nothing more to read, no line was `quit`, and
the loop goes round without a call. -/
inductive Spinning where
  | endOfInput
deriving DecidableEq, Repr

/-- An upcall ends with whether it has printed a line. -/
abbrev Task := Process Origin Op Reply Spinning Bool

abbrev System := Pool Origin Op Reply Spinning Shared Bool

def quit : List Char := "quit".toList

/-- `command`, from line `n` on. The lines are what `getline` finds, each with its newline. At the
end of the input it finds nothing, and the empty command does nothing. (A last line without a
newline would be carried out again and again.) -/
def command (client : Nat) : Nat → List (List Char) → Program Op Reply Spinning Bool
  | _, [] => .fail .endOfInput
  | n, cmd :: lines =>
    if cmd = quit then .done false
    else
      match (parse cmd).put ⟨client, n⟩ with
      | some p => .call (.put p) fun _ => command client (n + 1) lines
      | none => command client (n + 1) lines

/-- `ocdpo_handler`: an object that is not there has no valid version. -/
def ocdpoHandler (id : Id) (blob : List Char) : Program Op Reply Spinning Bool :=
  let requestKey := cString blob
  .call (.get requestKey) fun
    | some obj => .call (.print ⟨id, requestKey, cString obj⟩) fun _ => .done true
    | none => .done false

/-- The upcalls that a call starts. -/
def upcalls : Op → List Task
  | .put p =>
    if (clientStoreCheck ++ ['/']).isPrefixOf p.key then [⟨.upcall p.id, ocdpoHandler p.id p.blob⟩] else []
  | _ => []

/-- The clients by their numbers, each with its input. -/
def start (inputs : List (List (List Char))) : System :=
  ⟨⟨[], []⟩, inputs.zipIdx.map fun x => ⟨.client x.2, command x.2 0 x.1⟩⟩

def Step : System → System → Prop := Pool.Step act upcalls

def Reached (inputs : List (List (List Char))) : System → Prop :=
  Relation.ReflTransGen Step (start inputs)

/-- The commands of an input, up to `quit`. -/
def commands (input : List (List Char)) : List (List Char) := input.takeWhile (· ≠ quit)

/-- The command with this id, if there is one. -/
def commandAt (inputs : List (List (List Char))) (id : Id) : Option Command :=
  ((inputs[id.client]?).bind fun input => (commands input)[id.command]?).map parse

/-- What the command with this id puts. -/
def putAt (inputs : List (List (List Char))) (id : Id) : Option Put :=
  (commandAt inputs id).bind (Command.put id)

/-! ### What a client does -/

/-- The input from `quit` on. -/
def fromQuit (input : List (List Char)) : List (List Char) := input.dropWhile (· ≠ quit)

theorem commands_append (input : List (List Char)) : commands input ++ fromQuit input = input :=
  List.takeWhile_append_dropWhile

theorem quit_notMem (input : List (List Char)) : quit ∉ commands input := by
  intro h
  have hne := List.mem_takeWhile_imp h
  simp at hne

/-- From `quit` on, a client calls nothing. -/
theorem command_fromQuit (client n : Nat) (input : List (List Char)) :
    (command client n (fromQuit input)).next? = none := by
  induction input with
  | nil => rfl
  | cons cmd input ih =>
    by_cases hq : cmd = quit
    · rw [fromQuit, List.dropWhile_cons_of_neg (by simp [hq]), command, if_pos hq]
      rfl
    · rw [fromQuit, List.dropWhile_cons_of_pos (by simp [hq])]
      exact ih

/-- The next call of a client is the put of its next command that has one. -/
theorem command_call {client n : Nat} {lines input : List (List Char)} (hq : quit ∉ lines) {op : Op}
    {k : Reply op → Program Op Reply Spinning Bool}
    (h : command client n (lines ++ fromQuit input) = .call op k) :
    ∃ i cmd p, lines[i]? = some cmd ∧ (parse cmd).put ⟨client, n + i⟩ = some p ∧ op = .put p ∧
      (∀ m < i, ∀ cmd, lines[m]? = some cmd → (parse cmd).put ⟨client, n + m⟩ = none) ∧
      ∀ r, k r = command client (n + i + 1) (lines.drop (i + 1) ++ fromQuit input) := by
  induction lines generalizing n with
  | nil =>
    have hnone := command_fromQuit client n input
    rw [← List.nil_append (fromQuit input), h] at hnone
    cases hnone
  | cons cmd lines ih =>
    rw [List.mem_cons, not_or] at hq
    rw [List.cons_append, command, if_neg (Ne.symm hq.1)] at h
    split at h
    · next p hp =>
      cases h
      exact ⟨0, cmd, p, rfl, hp, rfl, fun m hm => absurd hm (Nat.not_lt_zero m), fun _ => rfl⟩
    · next hnone =>
      obtain ⟨i, cmd', p, hi, hp, hop, hbefore, hk⟩ := ih hq.2 h
      have hshift : ∀ m, n + (m + 1) = n + 1 + m := fun m => by omega
      refine ⟨i + 1, cmd', p, hi, by rw [hshift]; exact hp, hop, fun m hm c hc => ?_, fun r => ?_⟩
      · cases m with
        | zero =>
          obtain rfl := Option.some.inj hc
          exact hnone
        | succ m =>
          rw [hshift]
          exact hbefore m (by omega) c hc
      · rw [hk, hshift i, List.drop_succ_cons]

/-- A client that calls nothing any more has no command left that puts anything. -/
theorem command_next?_none {client n : Nat} {lines rest : List (List Char)} (hq : quit ∉ lines)
    (h : (command client n (lines ++ rest)).next? = none) {m : Nat} {cmd : List Char}
    (hm : lines[m]? = some cmd) : (parse cmd).put ⟨client, n + m⟩ = none := by
  induction lines generalizing n m with
  | nil => cases hm
  | cons cmd' lines ih =>
    rw [List.mem_cons, not_or] at hq
    rw [List.cons_append, command, if_neg (Ne.symm hq.1)] at h
    split at h
    · cases h
    · next hnone =>
      cases m with
      | zero =>
        obtain rfl := Option.some.inj hm
        exact hnone
      | succ m =>
        have hrest := ih hq.2 h hm
        rwa [Nat.add_assoc, Nat.add_comm 1 m] at hrest

/-- With `quit` ahead, a client that calls nothing any more has come to its end. -/
theorem command_done {client n : Nat} {lines : List (List Char)} (hq : quit ∈ lines)
    (h : (command client n lines).next? = none) : (command client n lines).isDone = true := by
  induction lines generalizing n with
  | nil => cases hq
  | cons cmd lines ih =>
    rw [command] at h ⊢
    split at h
    · next hcmd =>
      rw [if_pos hcmd]
      rfl
    · next hcmd =>
      rw [if_neg hcmd]
      split at h
      · cases h
      · exact ih ((List.mem_cons.mp hq).resolve_left (Ne.symm hcmd)) h

end CascadePlayground.Shortcut
