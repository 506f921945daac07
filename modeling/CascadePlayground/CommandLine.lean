import CascadePlayground.Text.Decimal
import Mathlib.Algebra.BigOperators.Group.List.Basic
import Mathlib.Algebra.Ring.Nat

/-! Command lines, as `getopt` reads them.

A word that starts with `-` has option letters after it. A letter that takes an
argument has the rest of its word for it, or the next word if nothing is left of
its own. Other words are operands, and are passed over; `--` ends the options.

`Spells kind os cs args` says that the rest `cs` of a word and the words `args`
after it spell the options `os`, in one of the ways there are. `getopt`, called
until it finds no more, finds exactly the options that are spelled
(`options_eq_iff`). -/
namespace CascadePlayground.CommandLine
open Text

abbrev Word := List Char

/-- What a call of `getopt` finds: an option with its `optarg`, or `'?'`. -/
inductive Found where
  | option (letter : Char) (optarg : Option Word)
  | unknown
deriving DecidableEq, Repr

/-- Where the next call goes on: `nextchar`, and the words it has not come to. -/
structure Getopt where
  nextchar : List Char
  args : List Word

/-- Whether `optstring` has the letter, and with an argument. -/
def kindOf (optstring : List Char) (c : Char) : Option Bool :=
  if c = ':' then none else
    match optstring.dropWhile (· ≠ c) with
    | [] => none
    | _ :: ':' :: _ => some true
    | _ :: _ => some false

section
variable (kind : Char → Option Bool)

/-- The next word with option letters: its first letter, what is left of it, and
the words after it. -/
def nextWord : List Word → Option (Char × List Char × List Word)
  | [] => none
  | ['-', '-'] :: _ => none
  | ('-' :: c :: cs) :: args => some (c, cs, args)
  | _ :: args => nextWord args

/-- An option letter, with what is left of its word and the words after that. -/
def take (c : Char) (cs : List Char) (args : List Word) : Found × Getopt :=
  match kind c with
  | none => (.unknown, ⟨cs, args⟩)
  | some false => (.option c none, ⟨cs, args⟩)
  | some true =>
    match cs, args with
    | [], [] => (.unknown, ⟨[], []⟩)
    | [], optarg :: args => (.option c (some optarg), ⟨[], args⟩)
    | d :: ds, args => (.option c (some (d :: ds)), ⟨[], args⟩)

/-- `getopt`; `none` for its result `-1`. -/
def getopt (s : Getopt) : Option (Found × Getopt) :=
  match s.nextchar with
  | [] => (nextWord s.args).map fun x => take kind x.1 x.2.1 x.2.2
  | c :: cs => some (take kind c cs s.args)

/-- How much there is left to read. -/
def Getopt.size (s : Getopt) : Nat := s.nextchar.length + (s.args.map fun w => w.length + 1).sum

theorem take_size (c : Char) (cs : List Char) (args : List Word) :
    (take kind c cs args).2.size ≤ cs.length + (args.map fun w => w.length + 1).sum := by
  unfold take
  split
  · exact Nat.le_refl _
  · exact Nat.le_refl _
  · split <;> simp only [Getopt.size, List.length_nil, List.map_cons, List.sum_cons] <;> omega

theorem nextWord_size {args rest : List Word} {c : Char} {cs : List Char}
    (h : nextWord args = some (c, cs, rest)) :
    cs.length + (rest.map fun w => w.length + 1).sum < (args.map fun w => w.length + 1).sum := by
  induction args using nextWord.induct with
  | case1 => cases h
  | case2 => cases h
  | case3 d ds args hne =>
    rw [nextWord] at h
    · cases h
      simp only [List.map_cons, List.sum_cons, List.length_cons]
      omega
    · exact hne
  | case4 w args hw hw' ih =>
    rw [nextWord] at h
    · have := ih h
      simp only [List.map_cons, List.sum_cons]
      omega
    · exact hw
    · exact hw'

theorem getopt_size {s s' : Getopt} {found : Found} (h : getopt kind s = some (found, s')) :
    s'.size < s.size := by
  unfold getopt at h
  split at h
  · next hs =>
    obtain ⟨⟨c, cs, args⟩, hw, ht⟩ := Option.map_eq_some_iff.mp h
    have htake : s'.size ≤ cs.length + (args.map fun w => w.length + 1).sum :=
      congrArg (fun x => x.2.size) ht ▸ take_size kind c cs args
    have hword := nextWord_size hw
    have hsize : s.size = (s.args.map fun w => w.length + 1).sum := by simp [Getopt.size, hs]
    omega
  · next c cs hs =>
    have htake : s'.size ≤ cs.length + (s.args.map fun w => w.length + 1).sum :=
      congrArg (fun x => x.2.size) (Option.some.inj h) ▸ take_size kind c cs s.args
    have hsize : s.size = cs.length + 1 + (s.args.map fun w => w.length + 1).sum := by
      simp [Getopt.size, hs]
    omega

/-- All that `getopt` finds, called until it is through. -/
def options (s : Getopt) : List Found :=
  match _h : getopt kind s with
  | none => []
  | some (found, s') => found :: options s'
termination_by s.size
decreasing_by exact getopt_size kind _h

/-! ### Spelling options -/

/-- A word that `getopt` passes over. -/
def IsOperand (w : Word) : Prop := ∀ c cs, w ≠ '-' :: c :: cs

inductive Spells : List (Char × Option Word) → List Char → List Word → Prop where
  | nil : Spells [] [] []
  | stop (args : List Word) : Spells [] [] (['-', '-'] :: args)
  | operand {os : List (Char × Option Word)} {w : Word} {args : List Word} :
      IsOperand w → Spells os [] args → Spells os [] (w :: args)
  | word {os : List (Char × Option Word)} {c : Char} {cs : List Char} {args : List Word} :
      c :: cs ≠ ['-'] → Spells os (c :: cs) args → Spells os [] (('-' :: c :: cs) :: args)
  | flag {os : List (Char × Option Word)} {c : Char} {cs : List Char} {args : List Word} :
      kind c = some false → Spells os cs args → Spells ((c, none) :: os) (c :: cs) args
  | joined {os : List (Char × Option Word)} {c : Char} {optarg : Word} {args : List Word} :
      kind c = some true → optarg ≠ [] → Spells os [] args →
        Spells ((c, some optarg) :: os) (c :: optarg) args
  | separate {os : List (Char × Option Word)} {c : Char} {optarg : Word} {args : List Word} :
      kind c = some true → Spells os [] args → Spells ((c, some optarg) :: os) [c] (optarg :: args)

variable {kind}

theorem nextWord_operand {w : Word} (h : IsOperand w) (args : List Word) :
    nextWord (w :: args) = nextWord args := by
  rw [nextWord]
  · exact h '-' []
  · exact h

theorem nextWord_word {c : Char} {cs : List Char} (h : c :: cs ≠ ['-']) (args : List Word) :
    nextWord (('-' :: c :: cs) :: args) = some (c, cs, args) := by
  rw [nextWord]
  intro hc hcs
  exact h (by rw [hc, hcs])

theorem take_joined {c : Char} {optarg : Word} (hc : kind c = some true) (hne : optarg ≠ [])
    (args : List Word) : take kind c optarg args = (.option c (some optarg), ⟨[], args⟩) := by
  cases optarg with
  | nil => exact absurd rfl hne
  | cons d ds => simp only [take, hc]

theorem options_none {s : Getopt} (h : getopt kind s = none) : options kind s = [] := by
  rw [options]
  split
  · rfl
  · next hs => rw [h] at hs; cases hs

theorem options_some {s s' : Getopt} {found : Found} (h : getopt kind s = some (found, s')) :
    options kind s = found :: options kind s' := by
  rw [options]
  split
  · next hs => rw [h] at hs; cases hs
  · next hs =>
    rw [h] at hs
    cases hs
    rfl

/-- The options of the words are those that the first of them with letters starts. -/
theorem options_congr {s s' : Getopt} (h : getopt kind s = getopt kind s') :
    options kind s = options kind s' := by
  cases hs : getopt kind s' with
  | none => rw [options_none hs, options_none (h.trans hs)]
  | some x => rw [options_some hs, options_some (h.trans hs)]

theorem options_of_spells {os : List (Char × Option Word)} {cs : List Char} {args : List Word}
    (h : Spells kind os cs args) :
    options kind ⟨cs, args⟩ = os.map fun o => .option o.1 o.2 := by
  induction h with
  | nil => exact options_none rfl
  | stop args => exact options_none rfl
  | operand hw _ ih =>
    rw [← ih]
    apply options_congr
    simp only [getopt, nextWord_operand hw]
  | word hne _ ih =>
    rw [← ih]
    apply options_congr
    simp only [getopt, nextWord_word hne, Option.map_some]
  | flag hc _ ih =>
    rw [List.map_cons, ← ih]
    apply options_some
    simp only [getopt, take, hc]
  | joined hc hne _ ih =>
    rw [List.map_cons, ← ih]
    apply options_some
    simp only [getopt, take_joined hc hne]
  | separate hc _ ih =>
    rw [List.map_cons, ← ih]
    apply options_some
    simp only [getopt, take, hc]

theorem spells_of_nextWord_none {args : List Word} (h : nextWord args = none) :
    Spells kind [] [] args := by
  induction args using nextWord.induct with
  | case1 => exact .nil
  | case2 args => exact .stop args
  | case3 c cs args hne =>
    rw [nextWord] at h
    · cases h
    · exact hne
  | case4 w args hw hw' ih =>
    rw [nextWord_operand hw'] at h
    exact .operand hw' (ih h)

theorem spells_of_nextWord {os : List (Char × Option Word)} {args rest : List Word} {c : Char}
    {cs : List Char} (h : nextWord args = some (c, cs, rest)) (hs : Spells kind os (c :: cs) rest) :
    Spells kind os [] args := by
  induction args using nextWord.induct with
  | case1 => cases h
  | case2 => cases h
  | case3 d ds args hne =>
    have hword : d :: ds ≠ ['-'] := fun he => by
      cases he
      exact hne rfl rfl
    rw [nextWord_word hword] at h
    cases h
    exact .word hword hs
  | case4 w args hw hw' ih =>
    rw [nextWord_operand hw'] at h
    exact .operand hw' (ih h)

/-- What a letter takes is spelled, if it is an option. -/
theorem spells_of_take {os : List (Char × Option Word)} {c d : Char} {cs : List Char}
    {args : List Word} {optarg : Option Word} {s : Getopt}
    (h : take kind c cs args = (.option d optarg, s)) (hs : Spells kind os s.nextchar s.args) :
    Spells kind ((d, optarg) :: os) (c :: cs) args := by
  unfold take at h
  split at h
  · cases h
  · next hc =>
    cases h
    exact .flag hc hs
  · next hc =>
    split at h
    · cases h
    · cases h
      exact .separate hc hs
    · cases h
      exact .joined hc (List.cons_ne_nil _ _) hs

/-- **`getopt` finds the options that are spelled**, and no command line without a
wrong letter or a missing argument is anything else than such a spelling. -/
theorem options_eq_iff {os : List (Char × Option Word)} {s : Getopt} :
    options kind s = os.map (fun o => .option o.1 o.2) ↔ Spells kind os s.nextchar s.args := by
  constructor
  · intro h
    obtain ⟨nextchar, args⟩ := s
    induction os generalizing nextchar args with
    | nil =>
      cases hg : getopt kind ⟨nextchar, args⟩ with
      | some x =>
        rw [options_some hg] at h
        cases h
      | none =>
        cases nextchar with
        | nil => exact spells_of_nextWord_none (Option.map_eq_none_iff.mp hg)
        | cons c cs => cases hg
    | cons o os ih =>
      cases hg : getopt kind ⟨nextchar, args⟩ with
      | none =>
        rw [options_none hg] at h
        cases h
      | some x =>
        obtain ⟨found, s'⟩ := x
        rw [options_some hg, List.map_cons, List.cons.injEq] at h
        obtain ⟨rfl, hrest⟩ := h
        have hs := ih s'.nextchar s'.args hrest
        cases nextchar with
        | nil =>
          obtain ⟨⟨c, cs, rest⟩, hw, ht⟩ := Option.map_eq_some_iff.mp hg
          exact spells_of_nextWord hw (spells_of_take ht hs)
        | cons c cs => exact spells_of_take (Option.some.inj hg) hs
  · exact options_of_spells

end

/-! ### Numbers -/

/-- `strtoul` in base ten: blanks, a sign, digits. What does not fit is the largest
number, and a number with a minus sign is negated in the unsigned type. -/
def strtoul (cs : List Char) : UInt64 :=
  let cs := cs.dropWhile isSpace
  let negative := cs.head? = some '-'
  let cs := if cs.head? = some '-' ∨ cs.head? = some '+' then cs.tail else cs
  let n := ofDecimal (cs.takeWhile Char.isDigit)
  if 2 ^ 64 ≤ n then .ofNat (2 ^ 64 - 1) else if negative then -.ofNat n else .ofNat n

theorem strtoul_decimal (n : UInt64) : strtoul (decimal n.toNat) = n := by
  obtain ⟨c, rest, hcons, hdigit⟩ := decimal_cons n.toNat
  have hspace : (decimal n.toNat).dropWhile isSpace = decimal n.toNat := by
    rw [hcons, List.dropWhile_cons_of_neg (by rw [isSpace_of_isDigit hdigit]; decide)]
  have hhead : (decimal n.toNat).head? = some c := by rw [hcons]; rfl
  have hminus : c ≠ '-' := fun h => by rw [h] at hdigit; cases hdigit
  have hplus : c ≠ '+' := fun h => by rw [h] at hdigit; cases hdigit
  have htake : (decimal n.toNat).takeWhile Char.isDigit = decimal n.toNat := by
    have := takeWhile_decimal n.toNat noDigit_nil
    rwa [List.append_nil] at this
  have hlt := n.toNat_lt
  simp only [strtoul, hspace, hhead, Option.some.injEq, hminus, hplus, or_self, if_false, htake,
    ofDecimal_decimal]
  rw [if_neg (by omega), UInt64.ofNat_toNat]

end CascadePlayground.CommandLine
