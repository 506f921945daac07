import CascadePlayground.Text.Decimal
import Mathlib.Algebra.Group.Int.Defs
import Mathlib.Algebra.Group.Nat.Defs

/-! Strings taken apart.

`find` and `substr` are the member functions of `std::string`, with `none` for
`npos`, and `stoi` is `std::stoi`. Where a text is put together from parts, they
give the parts back: the text before the first separator (`find_sep`,
`substr_before`), the text after it (`substr_after`), the number that a text
begins with (`stoi_decimal`). -/
namespace CascadePlayground.Text

inductive Exception where
  /-- `std::invalid_argument` -/
  | invalidArgument
  /-- `std::out_of_range` -/
  | outOfRange
deriving DecidableEq, Repr

/-- Where the pattern begins for the first time. -/
def find : List Char → List Char → Option Nat
  | [], pattern => if pattern = [] then some 0 else none
  | c :: cs, pattern =>
    if pattern.isPrefixOf (c :: cs) then some 0 else (find cs pattern).map (· + 1)

/-- `pos + 1`, which wraps to 0 when `pos` is `npos`. -/
def next : Option Nat → Nat
  | none => 0
  | some pos => pos + 1

def substr (s : List Char) (pos : Nat) (count : Option Nat) : Except Exception (List Char) :=
  if s.length < pos then .error .outOfRange
  else
    match count with
    | none => .ok (s.drop pos)
    | some count => .ok ((s.drop pos).take count)

/-- The number after the sign. -/
def stoiDigits (sign : Int) (s : List Char) : Except Exception Int :=
  let digits := s.takeWhile Char.isDigit
  if digits = [] then .error .invalidArgument
  else
    let value := sign * ofDecimal digits
    if -2 ^ 31 ≤ value ∧ value < 2 ^ 31 then .ok value else .error .outOfRange

def stoi (s : List Char) : Except Exception Int :=
  match s.dropWhile isSpace with
  | '-' :: rest => stoiDigits (-1) rest
  | '+' :: rest => stoiDigits 1 rest
  | rest => stoiDigits 1 rest

/-! ### Texts put together -/

theorem find_eq_zero {s pattern : List Char} : find s pattern = some 0 ↔ pattern <+: s := by
  cases s with
  | nil =>
    rw [find, List.prefix_nil]
    by_cases h : pattern = []
    · simp [h]
    · simp [h]
  | cons c cs =>
    rw [find, ← List.isPrefixOf_iff_prefix]
    cases hp : pattern.isPrefixOf (c :: cs)
    · cases find cs pattern <;> simp
    · simp

theorem find_sep {c : Char} {before : List Char} (h : c ∉ before) (after : List Char) :
    find (before ++ c :: after) [c] = some before.length := by
  induction before with
  | nil =>
    apply find_eq_zero.mpr
    exact List.prefix_append [c] after
  | cons d before ih =>
    have hd : [c].isPrefixOf (d :: (before ++ c :: after)) = false := by
      have hne : c ≠ d := fun he => h (he ▸ List.mem_cons_self ..)
      simp [List.isPrefixOf, hne]
    rw [List.cons_append, find, hd, ih fun hc => h (List.mem_cons_of_mem _ hc)]
    rfl

theorem find_none {c : Char} {s : List Char} (h : c ∉ s) : find s [c] = none := by
  induction s with
  | nil => rfl
  | cons d s ih =>
    have hd : [c].isPrefixOf (d :: s) = false := by
      have hne : c ≠ d := fun he => h (he ▸ List.mem_cons_self ..)
      simp [List.isPrefixOf, hne]
    rw [find, hd, ih fun hc => h (List.mem_cons_of_mem _ hc)]
    rfl

theorem substr_before (before after : List Char) :
    substr (before ++ after) 0 (some before.length) = .ok before := by
  rw [substr, if_neg (Nat.not_lt_zero _)]
  exact congrArg Except.ok List.take_left

theorem substr_after (before after : List Char) :
    substr (before ++ after) before.length none = .ok after := by
  rw [substr, if_neg (by rw [List.length_append]; omega)]
  exact congrArg Except.ok List.drop_left

theorem substr_next (before : List Char) (c : Char) (after : List Char) :
    substr (before ++ c :: after) (next (some before.length)) none = .ok after := by
  have hsplit : before ++ c :: after = (before ++ [c]) ++ after := by rw [List.append_assoc]; rfl
  have hlen : next (some before.length) = (before ++ [c]).length := by rw [List.length_append]; rfl
  rw [hsplit, hlen, substr_after]

theorem stoiDigits_decimal {n : Nat} (h : n < 2 ^ 31) {cs : List Char} (hcs : NoDigit cs) :
    stoiDigits 1 (decimal n ++ cs) = .ok n := by
  rw [stoiDigits, takeWhile_decimal n hcs]
  simp only [ofDecimal_decimal, Int.one_mul]
  rw [if_neg (decimal_ne_nil n), if_pos (by omega)]

/-- A printed number is read back, if an `int` can hold it. -/
theorem stoi_decimal {n : Nat} (h : n < 2 ^ 31) {cs : List Char} (hcs : NoDigit cs) :
    stoi (decimal n ++ cs) = .ok n := by
  have hdigits := stoiDigits_decimal h hcs
  obtain ⟨d, rest, hd, hdigit⟩ := decimal_cons n
  rw [hd] at hdigits ⊢
  have hspace : (d :: rest ++ cs).dropWhile isSpace = d :: rest ++ cs := by
    rw [List.cons_append, List.dropWhile_cons_of_neg (by rw [isSpace_of_isDigit hdigit]; decide)]
  rw [stoi, hspace]
  split
  · next h =>
    -- a digit is no sign
    obtain rfl := (List.cons.inj h).1
    cases hdigit
  · next h =>
    obtain rfl := (List.cons.inj h).1
    cases hdigit
  · exact hdigits

end CascadePlayground.Text
