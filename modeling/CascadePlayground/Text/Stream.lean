import CascadePlayground.Text.Decimal
import Mathlib.Control.Monad.Basic

/-! Reading unsigned numbers from a stream.

`extract` is `in >> x` for an unsigned `x`: blanks are skipped, digits are read,
and what they spell is stored, if it fits. Once an extraction has failed the
stream stays failed, and every later one leaves its variable as it was: with
whatever happened to be in it.

`Reads m ns a` says what a reader `m` does where the text goes on with the
numbers `ns`: it takes these and no others, and gives `a`. It is proved by the
rules for the parts of `m`: `Reads.extract`, `Reads.bind`, `Reads.times`. And
`Gives m P` says that what `m` gives has the property `P` on any text, also on one
that spells no numbers; its rules are `Gives.bind` and `Gives.times`. -/
namespace CascadePlayground.Text

structure InStream where
  text : List Char
  failed : Bool
  /-- How many numbers have been asked for. -/
  count : Nat
  /-- What is in the variable of each extraction before it. -/
  unassigned : Nat → Nat

abbrev Reader := StateM InStream

variable {α β ι : Type}

/-- `in >> x`. `convert` gives the value to store, and whether the number fits;
one that does not is replaced by the largest that does. -/
def extract (convert : Nat → α × Bool) : Reader α := fun s =>
  let old := (convert (s.unassigned s.count)).1
  let s := {s with count := s.count + 1}
  if s.failed then (old, s)
  else
    match s.text.dropWhile isSpace with
    -- nothing is left: the variable is not written
    | [] => (old, {s with text := [], failed := true})
    | c :: rest =>
      if c.isDigit then
        let x := convert (ofDecimal ((c :: rest).takeWhile Char.isDigit))
        (x.1, {s with text := (c :: rest).dropWhile Char.isDigit, failed := !x.2})
      else ((convert 0).1, {s with text := c :: rest, failed := true})

/-- A loop that makes `n` turns. -/
def times (body : β → Reader β) : Nat → β → Reader β
  | 0, b => pure b
  | n + 1, b => do times body n (← body b)

/-! ### Numbers in a text -/

/-- The text is these numbers, a blank after each and any others between them. -/
inductive Spells : List Char → List Nat → Prop where
  | nil : Spells [] []
  | blank {c : Char} {cs : List Char} {ns : List Nat} :
      isSpace c = true → Spells cs ns → Spells (c :: cs) ns
  | number (n : Nat) {c : Char} {cs : List Char} {ns : List Nat} :
      isSpace c = true → Spells cs ns → Spells (decimal n ++ c :: cs) (n :: ns)

theorem Spells.append {cs ds : List Char} {ms ns : List Nat} (h : Spells cs ms) (h' : Spells ds ns) :
    Spells (cs ++ ds) (ms ++ ns) := by
  induction h with
  | nil => exact h'
  | blank hc _ ih => exact .blank hc ih
  | number n hc _ ih =>
    rw [List.append_assoc, List.cons_append, List.cons_append]
    exact .number n hc ih

theorem Spells.flatMap {l : List ι} {text : ι → List Char} {numbers : ι → List Nat}
    (h : ∀ x ∈ l, Spells (text x) (numbers x)) : Spells (l.flatMap text) (l.flatMap numbers) := by
  induction l with
  | nil => exact .nil
  | cons x l ih =>
    rw [List.flatMap_cons, List.flatMap_cons]
    exact (h x (List.mem_cons_self ..)).append (ih fun y hy => h y (List.mem_cons_of_mem _ hy))

/-- A text that spells no number is blank. -/
theorem Spells.isSpace {cs : List Char} (h : Spells cs []) : ∀ c ∈ cs, isSpace c = true := by
  generalize hn : ([] : List Nat) = ns at h
  induction h with
  | nil => exact fun c hc => absurd hc List.not_mem_nil
  | blank hc _ ih =>
    intro d hd
    rcases List.mem_cons.mp hd with rfl | hd
    · exact hc
    · exact ih hn d hd
  | number _ _ _ _ => cases hn

/-- The first number of a text, after the blanks before it. -/
theorem Spells.cons {cs : List Char} {n : Nat} {ns : List Nat} (h : Spells cs (n :: ns)) :
    ∃ c ds, cs.dropWhile Text.isSpace = decimal n ++ c :: ds ∧ Text.isSpace c = true ∧ Spells ds ns := by
  generalize hn : n :: ns = l at h
  induction h with
  | nil => cases hn
  | blank hc _ ih =>
    rw [List.dropWhile_cons_of_pos hc]
    exact ih hn
  | @number m c cs l hc h _ =>
    obtain ⟨rfl, rfl⟩ := List.cons.inj hn
    refine ⟨c, cs, ?_, hc, h⟩
    obtain ⟨d, rest, hd, hdigit⟩ := decimal_cons n
    have hspace : ¬ Text.isSpace d = true := by
      intro hs
      rw [isDigit_of_isSpace hs] at hdigit
      cases hdigit
    rw [hd, List.cons_append, List.dropWhile_cons_of_neg hspace]

/-! ### What a reader does -/

/-- The stream is good, and goes on with these numbers. -/
structure InStream.Holds (s : InStream) (ns : List Nat) : Prop where
  good : s.failed = false
  spells : Spells s.text ns

def Reads (m : Reader α) (ns : List Nat) (a : α) : Prop :=
  ∀ (s : InStream) (ms : List Nat), s.Holds (ns ++ ms) →
    (m s).1 = a ∧ (m s).2.Holds ms ∧ (m s).2.count = s.count + ns.length

theorem Reads.pure (a : α) : Reads (pure a) [] a := fun _ _ h => ⟨rfl, h, rfl⟩

theorem Reads.bind {m : Reader α} {f : α → Reader β} {ms ns : List Nat} {a : α} {b : β}
    (h : Reads m ms a) (h' : Reads (f a) ns b) : Reads (m >>= f) (ms ++ ns) b := by
  intro s ls hs
  rw [List.append_assoc] at hs
  obtain ⟨ha, hrest, hcount⟩ := h s _ hs
  obtain ⟨hb, hend, hcount'⟩ := h' (m s).2 ls hrest
  have hrun : (m >>= f) s = f (m s).1 (m s).2 := rfl
  rw [hrun, ha]
  refine ⟨hb, hend, ?_⟩
  rw [hcount', hcount, List.length_append, Nat.add_assoc]

/-- A number that is there is taken, with the blanks before it. -/
theorem extract_number (convert : Nat → α × Bool) {s : InStream} {n : Nat} {cs : List Char}
    (hgood : s.failed = false) (hdrop : s.text.dropWhile isSpace = decimal n ++ cs) (hno : NoDigit cs) :
    extract convert s =
      ((convert n).1, {s with count := s.count + 1, text := cs, failed := !(convert n).2}) := by
  obtain ⟨d, rest, hd, hdigit⟩ := decimal_cons n
  have htake := takeWhile_decimal n hno
  have hskip := dropWhile_decimal n hno
  rw [hd, List.cons_append] at hdrop htake hskip
  unfold extract
  simp only [hgood, hdrop, hdigit, htake, hskip, Bool.false_eq_true, if_false, if_true]
  rw [← hd, ofDecimal_decimal]

theorem Reads.extract {convert : Nat → α × Bool} {n : Nat} {a : α} (h : convert n = (a, true)) :
    Reads (extract convert) [n] a := by
  intro s ms hs
  obtain ⟨c, cs, hdrop, hc, hrest⟩ := hs.spells.cons
  rw [extract_number convert hs.good hdrop (noDigit_cons (isDigit_of_isSpace hc)), h]
  exact ⟨rfl, ⟨rfl, .blank hc hrest⟩, rfl⟩

theorem Reads.bind_pure {m : Reader α} {g : α → β} {ns : List Nat} {a : α} (h : Reads m ns a) :
    Reads (m >>= fun x => Pure.pure (g x)) ns (g a) := by
  have hb := h.bind (f := fun x => Pure.pure (g x)) (.pure (g a))
  rw [List.append_nil] at hb
  exact hb

theorem Reads.cons_bind {m : Reader α} {f : α → Reader β} {n : Nat} {ns : List Nat} {a : α} {b : β}
    (h : Reads m [n] a) (h' : Reads (f a) ns b) : Reads (m >>= f) (n :: ns) b :=
  h.bind h'

theorem Reads.extract_bind {convert : Nat → α × Bool} {f : α → Reader β} {n : Nat} {ns : List Nat}
    {a : α} {b : β} (h : convert n = (a, true)) (h' : Reads (f a) ns b) :
    Reads (Text.extract convert >>= f) (n :: ns) b :=
  (Reads.extract h).bind h'

/-- A loop with a turn for each item, whatever has been gathered before. -/
theorem Reads.times {body : β → Reader β} {numbers : ι → List Nat} {g : β → ι → β}
    (items : List ι) (h : ∀ b, ∀ x ∈ items, Reads (body b) (numbers x) (g b x)) (b : β) :
    Reads (times body items.length b) (items.flatMap numbers) (items.foldl g b) := by
  induction items generalizing b with
  | nil => exact .pure b
  | cons x items ih =>
    rw [List.flatMap_cons, List.foldl_cons]
    exact (h b x (List.mem_cons_self ..)).bind (ih (fun b y hy => h b y (List.mem_cons_of_mem _ hy)) _)

theorem foldl_concat (items : List ι) : items.foldl (fun l x => l ++ [x]) [] = items := by
  rw [List.foldl_append_eq_append, ← List.flatMap_def, List.flatMap_singleton', List.nil_append]

/-- A loop that gathers the items in a list. -/
theorem Reads.times_list {body : List ι → Reader (List ι)} {numbers : ι → List Nat} (items : List ι)
    (h : ∀ l, ∀ x ∈ items, Reads (body l) (numbers x) (l ++ [x])) :
    Reads (Text.times body items.length []) (items.flatMap numbers) items := by
  have hfold := Reads.times (g := fun l x => l ++ [x]) items h []
  rw [foldl_concat] at hfold
  exact hfold

theorem times_add (body : β → Reader β) (m n : Nat) (b : β) :
    times body (m + n) b = times body m b >>= times body n := by
  induction m generalizing b with
  | zero => rw [Nat.zero_add, times, pure_bind]
  | succ m ih => simp only [Nat.succ_add, times, bind_assoc, ih]

/-- Nested loops whose body does not use their counters. -/
theorem times_times (body : β → Reader β) (m n : Nat) (b : β) :
    times (times body n) m b = times body (m * n) b := by
  induction m generalizing b with
  | zero => rw [Nat.zero_mul]; rfl
  | succ m ih =>
    have hcomm : (m + 1) * n = n + m * n := by rw [Nat.succ_mul, Nat.add_comm]
    show times body n b >>= times (times body n) m = _
    rw [hcomm, times_add]
    exact congrArg (times body n b >>= ·) (funext ih)

/-! ### What a reader can give -/

/-- Whatever it reads from, what it gives has the property. -/
def Gives (m : Reader α) (P : α → Prop) : Prop := ∀ s, P (m s).1

theorem Gives.pure {P : α → Prop} {a : α} (h : P a) : Gives (pure a) P := fun _ => h

theorem Gives.bind {m : Reader α} {f : α → Reader β} {P : α → Prop} {Q : β → Prop} (h : Gives m P)
    (h' : ∀ a, P a → Gives (f a) Q) : Gives (m >>= f) Q :=
  fun s => h' (m s).1 (h s) (m s).2

/-- Nothing is asked of what is given first. -/
theorem Gives.any {m : Reader α} {f : α → Reader β} {Q : β → Prop} (h : ∀ a, Gives (f a) Q) :
    Gives (m >>= f) Q :=
  fun s => h (m s).1 (m s).2

/-- A loop has put in an item at each turn, and all are of the kind that a turn puts in. -/
theorem Gives.times {body : β → Reader β} {P : ι → Prop} {g : β → ι → β}
    (h : ∀ b, Gives (body b) fun b' => ∃ x, P x ∧ b' = g b x) (n : Nat) (b : β) :
    Gives (times body n b) fun b' =>
      ∃ items : List ι, items.length = n ∧ (∀ x ∈ items, P x) ∧ b' = items.foldl g b := by
  induction n generalizing b with
  | zero => exact .pure ⟨[], rfl, fun _ hx => absurd hx List.not_mem_nil, rfl⟩
  | succ n ih =>
    refine (h b).bind fun _ ⟨x, hx, hb⟩ => ?_
    subst hb
    intro s
    obtain ⟨items, hlen, hitems, he⟩ := ih (g b x) s
    exact ⟨x :: items, congrArg Nat.succ hlen, List.forall_mem_cons.mpr ⟨hx, hitems⟩, he⟩

/-- A loop that gathers items in a list. -/
theorem Gives.times_list {body : List ι → Reader (List ι)} {P : ι → Prop}
    (h : ∀ l, Gives (body l) fun l' => ∃ x, P x ∧ l' = l ++ [x]) (n : Nat) :
    Gives (Text.times body n []) fun l => l.length = n ∧ ∀ x ∈ l, P x := by
  intro s
  obtain ⟨items, hlen, hitems, he⟩ := Gives.times h n [] s
  rw [foldl_concat] at he
  rw [he]
  exact ⟨hlen, hitems⟩

end CascadePlayground.Text
