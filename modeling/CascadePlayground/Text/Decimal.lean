import Mathlib.Data.Nat.Notation
import Mathlib.Data.List.TakeWhile

/-! Numbers in text.

`decimal n` is what C++ prints for an unsigned `n`, and what `std::to_string` and
Python's `str` give: the decimal digits, the first of them not zero unless it is
the only one. `ofDecimal` reads digits back. Digits are told apart from whatever
follows them as long as that begins with no digit (`takeWhile_decimal`,
`dropWhile_decimal`), so that printed numbers can be read out of a text. -/
namespace CascadePlayground.Text

def decimal (n : Nat) : List Char := Nat.toDigits 10 n

def ofDecimal (digits : List Char) : Nat := Nat.ofDigitChars 10 digits 0

@[simp] theorem ofDecimal_decimal (n : Nat) : ofDecimal (decimal n) = n :=
  Nat.ofDigitChars_ten_toDigits

theorem decimal_injective {m n : Nat} (h : decimal m = decimal n) : m = n := by
  rw [← ofDecimal_decimal m, h, ofDecimal_decimal]

theorem isDigit_decimal {n : Nat} {c : Char} (h : c ∈ decimal n) : c.isDigit = true :=
  Nat.isDigit_of_mem_toDigits (by decide) (by decide) h

theorem notMem_decimal {c : Char} (h : c.isDigit = false) (n : Nat) : c ∉ decimal n := by
  intro hc
  rw [isDigit_decimal hc] at h
  cases h

theorem decimal_ne_nil (n : Nat) : decimal n ≠ [] := Nat.toDigits_ne_nil

/-- The first character of a printed number. -/
theorem decimal_cons (n : Nat) : ∃ c rest, decimal n = c :: rest ∧ c.isDigit = true := by
  cases h : decimal n with
  | nil => exact absurd h (decimal_ne_nil n)
  | cons c rest => exact ⟨c, rest, rfl, isDigit_decimal (h ▸ List.mem_cons_self ..)⟩

/-- `isspace`, in the locale of a program that sets none. -/
def isSpace (c : Char) : Bool :=
  c == ' ' || c == '\t' || c == '\n' || c == '\x0b' || c == '\x0c' || c == '\r'

theorem isDigit_of_isSpace {c : Char} (h : isSpace c = true) : c.isDigit = false := by
  simp only [isSpace, Bool.or_eq_true, beq_iff_eq] at h
  rcases h with ((((rfl | rfl) | rfl) | rfl) | rfl) | rfl <;> rfl

theorem isSpace_of_isDigit {c : Char} (h : c.isDigit = true) : isSpace c = false := by
  by_contra hs
  rw [isDigit_of_isSpace (eq_true_of_ne_false hs)] at h
  cases h

/-- A text that does not go on with a digit. -/
def NoDigit (cs : List Char) : Prop := ∀ c ∈ cs.head?, c.isDigit = false

theorem noDigit_nil : NoDigit [] := fun c hc => by cases hc

theorem noDigit_cons {c : Char} {cs : List Char} (h : c.isDigit = false) : NoDigit (c :: cs) := by
  intro d hd
  cases hd
  exact h

theorem takeWhile_decimal (n : Nat) {cs : List Char} (h : NoDigit cs) :
    (decimal n ++ cs).takeWhile Char.isDigit = decimal n := by
  rw [List.takeWhile_append_of_pos fun c hc => isDigit_decimal hc]
  cases cs with
  | nil => rw [List.takeWhile_nil, List.append_nil]
  | cons c cs =>
    have hc : c.isDigit = false := h c rfl
    rw [List.takeWhile_cons_of_neg (by rw [hc]; decide), List.append_nil]

theorem dropWhile_decimal (n : Nat) {cs : List Char} (h : NoDigit cs) :
    (decimal n ++ cs).dropWhile Char.isDigit = cs := by
  rw [List.dropWhile_append_of_pos fun c hc => isDigit_decimal hc]
  cases cs with
  | nil => rfl
  | cons c cs =>
    have hc : c.isDigit = false := h c rfl
    rw [List.dropWhile_cons_of_neg (by rw [hc]; decide)]

/-- Two texts that start with a printed number have the same number and the same rest. -/
theorem decimal_append_inj {m n : Nat} {cs ds : List Char} (hc : NoDigit cs) (hd : NoDigit ds)
    (h : decimal m ++ cs = decimal n ++ ds) : m = n ∧ cs = ds := by
  have htake := congrArg (List.takeWhile Char.isDigit) h
  have hdrop := congrArg (List.dropWhile Char.isDigit) h
  rw [takeWhile_decimal m hc, takeWhile_decimal n hd] at htake
  rw [dropWhile_decimal m hc, dropWhile_decimal n hd] at hdrop
  exact ⟨decimal_injective htake, hdrop⟩

/-- A signed number, printed. -/
def integer : Int → List Char
  | .ofNat n => decimal n
  | .negSucc n => '-' :: decimal (n + 1)

@[simp] theorem integer_natCast (n : Nat) : integer n = decimal n := rfl

end CascadePlayground.Text
