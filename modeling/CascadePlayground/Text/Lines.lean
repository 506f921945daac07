import CascadePlayground.Text.Decimal

/-! Lines of words, written and read back.

`lines` is what a loop over a text file yields, each line with its end, and
`splitOn` takes a line apart at the blanks. `pyInt` is Python's `int` of an ASCII
text. A line that was put together from words and numbers gives them back
(`lines_flatMap`, `splitOn_spaced`, `pyInt_integer`). -/
namespace CascadePlayground.Text

/-- Every end of a line is read as a newline. -/
def universalNewlines : List Char → List Char
  | '\r' :: '\n' :: cs => '\n' :: universalNewlines cs
  | '\r' :: cs => '\n' :: universalNewlines cs
  | c :: cs => c :: universalNewlines cs
  | [] => []

def linesFrom (line : List Char) : List Char → List (List Char)
  | [] => if line = [] then [] else [line]
  | c :: cs => if c = '\n' then (line ++ [c]) :: linesFrom [] cs else linesFrom (line ++ [c]) cs

def lines (text : List Char) : List (List Char) := linesFrom [] text

/-- Words with a blank after each, and then the last one. -/
def spaced (words : List (List Char)) (last : List Char) : List Char :=
  words.foldr (fun word rest => word ++ ' ' :: rest) last

/-- Blanks for `int`. -/
def isPySpace (c : Char) : Bool := isSpace c || ('\x1c' ≤ c && c ≤ '\x1f')

/-- The words between blanks. -/
def split (s : List Char) : List (List Char) := (s.splitOnP isPySpace).filter fun word => !word.isEmpty

def strip (s : List Char) : List Char :=
  ((s.dropWhile isPySpace).reverse.dropWhile isPySpace).reverse

/-- Digits, with single underscores between them. -/
def pyDigits (s : List Char) : Option Nat :=
  let groups := s.splitOn '_'
  if groups.all fun group => !group.isEmpty && group.all Char.isDigit then
    some (ofDecimal groups.flatten)
  else none

def pyInt (s : List Char) : Option Int :=
  match strip s with
  | '-' :: rest => (pyDigits rest).map fun (n : Nat) => -(n : Int)
  | '+' :: rest => (pyDigits rest).map fun (n : Nat) => (n : Int)
  | rest => (pyDigits rest).map fun (n : Nat) => (n : Int)

/-! ### Lines -/

theorem universalNewlines_eq {cs : List Char} (h : '\r' ∉ cs) : universalNewlines cs = cs := by
  fun_induction universalNewlines cs with
  | case1 cs => exact absurd (List.mem_cons_self ..) h
  | case2 cs => exact absurd (List.mem_cons_self ..) h
  | case3 c cs _ _ ih => rw [ih fun hc => h (List.mem_cons_of_mem _ hc)]
  | case4 => rfl

theorem linesFrom_line {l : List Char} (h : '\n' ∉ l) (line rest : List Char) :
    linesFrom line (l ++ '\n' :: rest) = (line ++ (l ++ ['\n'])) :: lines rest := by
  induction l generalizing line with
  | nil => rfl
  | cons c l ih =>
    have hc : c ≠ '\n' := fun hc => h (hc ▸ List.mem_cons_self ..)
    rw [List.cons_append, linesFrom, if_neg hc, ih fun hl => h (List.mem_cons_of_mem _ hl),
      List.append_assoc]
    rfl

theorem lines_flatMap {ls : List (List Char)} (h : ∀ l ∈ ls, '\n' ∉ l) :
    lines (ls.flatMap fun l => l ++ ['\n']) = ls.map fun l => l ++ ['\n'] := by
  induction ls with
  | nil => rfl
  | cons l ls ih =>
    have htext : (l :: ls).flatMap (fun l => l ++ ['\n']) = l ++ '\n' :: ls.flatMap fun l => l ++ ['\n'] := by
      rw [List.flatMap_cons, List.append_assoc]
      rfl
    rw [htext, lines, linesFrom_line (h l (List.mem_cons_self ..)), List.nil_append,
      ih fun l hl => h l (List.mem_cons_of_mem _ hl)]
    rfl

/-- Lines that have been written are read back. -/
theorem lines_written {ls : List (List Char)} (h : ∀ l ∈ ls, '\n' ∉ l ∧ '\r' ∉ l) :
    lines (universalNewlines (ls.flatMap fun l => l ++ ['\n'])) = ls.map fun l => l ++ ['\n'] := by
  have hreturn : '\r' ∉ ls.flatMap fun l => l ++ ['\n'] := by
    intro hc
    obtain ⟨l, hl, hc⟩ := List.mem_flatMap.mp hc
    rcases List.mem_append.mp hc with hc | hc
    · exact (h l hl).2 hc
    · exact absurd hc (by decide)
  rw [universalNewlines_eq hreturn]
  exact lines_flatMap fun l hl => (h l hl).1

/-! ### Words -/

theorem spaced_append (words : List (List Char)) (last rest : List Char) :
    spaced words last ++ rest = spaced words (last ++ rest) := by
  induction words with
  | nil => rfl
  | cons word words ih =>
    show (word ++ ' ' :: spaced words last) ++ rest = word ++ ' ' :: spaced words (last ++ rest)
    rw [List.append_assoc, List.cons_append, ih]

theorem notMem_spaced {c : Char} (hc : c ≠ ' ') {words : List (List Char)} {last : List Char}
    (hwords : ∀ w ∈ words, c ∉ w) (hlast : c ∉ last) : c ∉ spaced words last := by
  induction words with
  | nil => exact hlast
  | cons word words ih =>
    show c ∉ word ++ ' ' :: spaced words last
    rw [List.mem_append, List.mem_cons, not_or, not_or]
    exact ⟨hwords word (List.mem_cons_self ..), hc, ih fun w hw => hwords w (List.mem_cons_of_mem _ hw)⟩

theorem splitOn_spaced {words : List (List Char)} (h : ∀ w ∈ words, ' ' ∉ w) (last : List Char) :
    (spaced words last).splitOn ' ' = words ++ last.splitOn ' ' := by
  induction words with
  | nil => rfl
  | cons word words ih =>
    show (word ++ ' ' :: spaced words last).splitOn ' ' = _
    rw [List.splitOn_append_cons_self_of_not_mem (h word (List.mem_cons_self ..)),
      ih fun w hw => h w (List.mem_cons_of_mem _ hw)]
    rfl

theorem split_cons {word : List Char} (hword : ∀ c ∈ word, isPySpace c = false) (hne : word ≠ [])
    {blank : Char} (hblank : isPySpace blank = true) (rest : List Char) :
    split (word ++ blank :: rest) = word :: split rest := by
  have hkeep : (!word.isEmpty) = true := by rw [List.isEmpty_eq_false_iff.mpr hne]; rfl
  rw [split, List.splitOnP_append_cons_of_forall_mem hword blank hblank]
  exact List.filter_cons_of_pos hkeep

/-- The end of a line is no word. -/
theorem split_newline (line : List Char) : split (line ++ ['\n']) = split line := by
  have hsplit : (line ++ ['\n']).splitOnP isPySpace = line.splitOnP isPySpace ++ [].splitOnP isPySpace :=
    List.splitOnP_append_cons line [] rfl
  rw [split, hsplit, List.filter_append]
  exact List.append_nil _

theorem split_spaced {words : List (List Char)} {last : List Char}
    (hwords : ∀ w ∈ words, w ≠ [] ∧ ∀ c ∈ w, isPySpace c = false) (hlast : last ≠ [])
    (hchars : ∀ c ∈ last, isPySpace c = false) : split (spaced words last) = words ++ [last] := by
  induction words with
  | nil =>
    rw [← split_newline]
    exact split_cons hchars hlast rfl []
  | cons word words ih =>
    obtain ⟨hne, hword⟩ := hwords word (List.mem_cons_self ..)
    rw [List.cons_append, ← ih fun w hw => hwords w (List.mem_cons_of_mem _ hw)]
    exact split_cons hword hne rfl _

/-! ### Numbers -/

theorem dropWhile_eq_self {p : Char → Bool} {s : List Char} (h : ∀ c ∈ s, p c = false) :
    s.dropWhile p = s := by
  cases s with
  | nil => rfl
  | cons c s => exact List.dropWhile_cons_of_neg (by rw [h c (List.mem_cons_self ..)]; decide)

theorem strip_append {s blanks : List Char} (hs : ∀ c ∈ s, isPySpace c = false) (hne : s ≠ [])
    (hblanks : ∀ c ∈ blanks, isPySpace c = true) : strip (s ++ blanks) = s := by
  cases s with
  | nil => exact absurd rfl hne
  | cons c s =>
    have hfirst : ((c :: s) ++ blanks).dropWhile isPySpace = (c :: s) ++ blanks :=
      List.dropWhile_cons_of_neg (by rw [hs c (List.mem_cons_self ..)]; decide)
    have hrev : ∀ d ∈ (c :: s).reverse, isPySpace d = false := fun d hd => hs d (List.mem_reverse.mp hd)
    rw [strip, hfirst, List.reverse_append,
      List.dropWhile_append_of_pos fun d hd => hblanks d (List.mem_reverse.mp hd),
      dropWhile_eq_self hrev, List.reverse_reverse]

theorem pyDigits_decimal (n : Nat) : pyDigits (decimal n) = some n := by
  have hgroups : (decimal n).splitOn '_' = [decimal n] :=
    List.splitOn_eq_singleton (notMem_decimal rfl n)
  have hall : ([decimal n].all fun group => !group.isEmpty && group.all Char.isDigit) = true := by
    simp only [List.all_cons, List.all_nil, Bool.and_true, Bool.and_eq_true, List.all_eq_true]
    exact ⟨by simp [decimal_ne_nil], fun c hc => isDigit_decimal hc⟩
  simp only [pyDigits, hgroups]
  rw [if_pos hall, List.flatten_singleton, ofDecimal_decimal]

/-- The characters of a printed number. -/
theorem integer_chars {z : Int} {c : Char} (h : c ∈ integer z) : c = '-' ∨ c.isDigit = true := by
  cases z with
  | ofNat n => exact .inr (isDigit_decimal h)
  | negSucc n =>
    rcases List.mem_cons.mp h with h | h
    · exact .inl h
    · exact .inr (isDigit_decimal h)

theorem integer_ne_nil (z : Int) : integer z ≠ [] := by
  cases z with
  | ofNat n => exact decimal_ne_nil n
  | negSucc n => exact List.cons_ne_nil _ _

theorem notMem_integer {c : Char} (hc : c ≠ '-') (hd : c.isDigit = false) (z : Int) : c ∉ integer z := by
  intro h
  rcases integer_chars h with h | h
  · exact hc h
  · rw [hd] at h
    cases h

theorem isPySpace_of_isDigit {c : Char} (h : c.isDigit = true) : isPySpace c = false := by
  have hfirst : '0' ≤ c := (Bool.and_eq_true_iff.mp h).1 |> of_decide_eq_true
  have hcontrol : ¬ c ≤ '\x1f' := fun hle => absurd (Char.le_trans hfirst hle) (by decide)
  rw [isPySpace, isSpace_of_isDigit h, decide_eq_false hcontrol, Bool.and_false]
  rfl

theorem isPySpace_integer {z : Int} {c : Char} (h : c ∈ integer z) : isPySpace c = false := by
  rcases integer_chars h with rfl | h
  · rfl
  · exact isPySpace_of_isDigit h

theorem pyInt_integer (z : Int) (blanks : List Char) (h : ∀ c ∈ blanks, isPySpace c = true) :
    pyInt (integer z ++ blanks) = some z := by
  have hstrip : strip (integer z ++ blanks) = integer z :=
    strip_append (fun c hc => isPySpace_integer hc) (integer_ne_nil z) h
  rw [pyInt, hstrip]
  cases z with
  | ofNat n =>
    obtain ⟨d, rest, hd, hdigit⟩ := decimal_cons n
    have hread : (pyDigits (decimal n)).map (fun (n : Nat) => (n : Int)) = some n := by
      rw [pyDigits_decimal]
      rfl
    show (match decimal n with
      | '-' :: rest => (pyDigits rest).map fun (n : Nat) => -(n : Int)
      | '+' :: rest => (pyDigits rest).map fun (n : Nat) => (n : Int)
      | rest => (pyDigits rest).map fun (n : Nat) => (n : Int)) = some (n : Int)
    split
    · next h =>
      -- a digit is no sign
      obtain rfl := (List.cons.inj (hd.symm.trans h)).1
      cases hdigit
    · next h =>
      obtain rfl := (List.cons.inj (hd.symm.trans h)).1
      cases hdigit
    · exact hread
  | negSucc n =>
    show (pyDigits (decimal (n + 1))).map _ = _
    rw [pyDigits_decimal]
    rfl

end CascadePlayground.Text
