import CascadePlayground.Text.Stream

/-! Reading a text that is cut off.

A reader sees a text only as the numbers that it takes, one after the other. So
on a text that is cut off it does what it does on the whole text, until it asks
for a number that is not there (`Sequential.cut`); then the stream has failed, and
stays so. A reader that takes all the numbers of a text asks for more than there
are on every text with fewer of them (`Sequential.short`). -/
namespace CascadePlayground.Text

variable {α β : Type}

/-- The stream is good, and these numbers are all that is left. There may be no
blank after the last one. -/
structure InStream.Ends (s : InStream) (ns : List Nat) : Prop where
  good : s.failed = false
  spells : Spells (s.text ++ ['\n']) ns

/-- The reader has asked for more numbers than the stream had. -/
structure Short (m : Reader α) (s : InStream) (ns : List Nat) : Prop where
  failed : (m s).2.failed = true
  count : s.count + ns.length < (m s).2.count

/-- The reader takes the same numbers from both streams, and leaves these. -/
structure Alike (m : Reader α) (s whole : InStream) (taken left rest : List Nat) : Prop where
  value : (m s).1 = (m whole).1
  ends : (m s).2.Ends left
  count : (m s).2.count = s.count + taken.length
  wholeEnds : (m whole).2.Ends (left ++ rest)
  wholeCount : (m whole).2.count = whole.count + taken.length

structure Sequential (m : Reader α) : Prop where
  failed : ∀ s, s.failed = true → (m s).2.failed = true
  count : ∀ s, s.count ≤ (m s).2.count
  cut : ∀ ns rest s whole, s.Ends ns → whole.Ends (ns ++ rest) → (m whole).2.failed = false →
    Short m s ns ∨ ∃ taken left, ns = taken ++ left ∧ Alike m s whole taken left rest

/-! ### One number -/

theorem InStream.Ends.nil {s : InStream} (h : s.Ends []) : s.text.dropWhile isSpace = [] := by
  apply List.dropWhile_eq_nil_iff.mpr
  intro c hc
  exact h.spells.isSpace c (List.mem_append_left _ hc)

theorem InStream.Ends.cons {s : InStream} {n : Nat} {ns : List Nat} (h : s.Ends (n :: ns)) :
    ∃ cs, s.text.dropWhile isSpace = decimal n ++ cs ∧ NoDigit cs ∧ Spells (cs ++ ['\n']) ns := by
  obtain ⟨c, ds, hdrop, hc, hrest⟩ := h.spells.cons
  rw [List.dropWhile_append] at hdrop
  split at hdrop
  · exact absurd hdrop.symm (List.append_ne_nil_of_right_ne_nil _ (List.cons_ne_nil c ds))
  · obtain ⟨cs, last, hlast⟩ : ∃ cs last, c :: ds = cs ++ [last] :=
      ⟨_, _, (List.dropLast_concat_getLast (List.cons_ne_nil c ds)).symm⟩
    rw [hlast, ← List.append_assoc] at hdrop
    obtain ⟨htext, hend⟩ := List.append_inj' hdrop rfl
    refine ⟨cs, htext, ?_, ?_⟩
    · cases cs with
      | nil => exact noDigit_nil
      | cons d cs =>
        obtain rfl := (List.cons.inj hlast).1
        exact noDigit_cons (isDigit_of_isSpace hc)
    · rw [hend, ← hlast]
      exact .blank hc hrest

theorem Sequential.pure (a : α) : Sequential (pure a) := by
  refine ⟨fun _ h => h, fun _ => Nat.le_refl _, fun ns rest s whole hs hwhole _ => .inr ⟨[], ns, rfl, ?_⟩⟩
  exact ⟨rfl, hs, rfl, hwhole, rfl⟩

theorem extract_failed (convert : Nat → α × Bool) {s : InStream} (h : s.failed = true) :
    (extract convert s).2 = {s with count := s.count + 1} := by
  unfold extract
  rw [if_pos h]

theorem extract_count (convert : Nat → α × Bool) (s : InStream) :
    (extract convert s).2.count = s.count + 1 := by
  cases h : s.failed with
  | true => rw [extract_failed convert h]
  | false =>
    simp only [extract, h, Bool.false_eq_true, if_false]
    split
    · rfl
    · split <;> rfl

theorem extract_nothing (convert : Nat → α × Bool) {s : InStream} (hgood : s.failed = false)
    (hnil : s.text.dropWhile isSpace = []) : (extract convert s).2.failed = true := by
  unfold extract
  simp only [hgood, hnil, Bool.false_eq_true, if_false]

theorem Sequential.extract (convert : Nat → α × Bool) : Sequential (extract convert) := by
  refine ⟨fun s h => by rw [extract_failed convert h]; exact h,
    fun s => by rw [extract_count]; exact Nat.le_succ _, ?_⟩
  intro ns rest s whole hs hwhole hgood
  cases ns with
  | nil => exact .inl ⟨extract_nothing convert hs.good hs.nil, by rw [extract_count]; exact Nat.lt_succ_self _⟩
  | cons n ns =>
    obtain ⟨cs, hdrop, hno, hspells⟩ := hs.cons
    obtain ⟨ds, hdrop', hno', hspells'⟩ := hwhole.cons
    have hrun := extract_number convert hs.good hdrop hno
    have hrun' := extract_number convert hwhole.good hdrop' hno'
    rw [hrun'] at hgood
    refine .inr ⟨[n], ns, rfl, ?_⟩
    constructor
    · rw [hrun, hrun']
    · rw [hrun]
      exact ⟨hgood, hspells⟩
    · rw [hrun]
      rfl
    · rw [hrun']
      exact ⟨hgood, hspells'⟩
    · rw [hrun']
      rfl

/-! ### One after the other -/

theorem Sequential.bind {m : Reader α} {f : α → Reader β} (h : Sequential m)
    (h' : ∀ a, Sequential (f a)) : Sequential (m >>= f) := by
  refine ⟨fun s hs => (h' _).failed _ (h.failed s hs),
    fun s => Nat.le_trans (h.count s) ((h' _).count _), ?_⟩
  intro ns rest s whole hs hwhole hgood
  have hrun : ∀ s, (m >>= f) s = f (m s).1 (m s).2 := fun _ => rfl
  have hfirst : (m whole).2.failed = false := by
    apply Bool.eq_false_iff.mpr
    intro hfailed
    rw [hrun, (h' _).failed _ hfailed] at hgood
    cases hgood
  rcases h.cut ns rest s whole hs hwhole hfirst with hshort | ⟨taken, left, rfl, halike⟩
  · -- the rest of the run only counts on
    exact .inl ⟨(h' _).failed _ hshort.failed, Nat.lt_of_lt_of_le hshort.count ((h' _).count _)⟩
  · rcases (h' (m whole).1).cut left rest _ _ halike.ends halike.wholeEnds hgood with
      hshort | ⟨taken', left', rfl, halike'⟩
    · left
      constructor
      · rw [hrun, halike.value]
        exact hshort.failed
      · rw [hrun, halike.value, List.length_append, ← Nat.add_assoc, ← halike.count]
        exact hshort.count
    · refine .inr ⟨taken ++ taken', left', (List.append_assoc ..).symm, ?_⟩
      constructor
      · rw [hrun, hrun, halike.value]
        exact halike'.value
      · rw [hrun, halike.value]
        exact halike'.ends
      · rw [hrun, halike.value, halike'.count, halike.count, List.length_append, Nat.add_assoc]
      · exact halike'.wholeEnds
      · rw [hrun, halike'.wholeCount, halike.wholeCount, List.length_append, Nat.add_assoc]

theorem Sequential.times {body : β → Reader β} (h : ∀ b, Sequential (body b)) (n : Nat) (b : β) :
    Sequential (times body n b) := by
  induction n generalizing b with
  | zero => exact .pure b
  | succ n ih => exact (h b).bind ih

/-! ### All the numbers of a text -/

/-- Texts for all numbers. -/
theorem exists_spells (ns : List Nat) : ∃ text, Spells text ns := by
  induction ns with
  | nil => exact ⟨[], .nil⟩
  | cons n ns ih =>
    obtain ⟨text, h⟩ := ih
    exact ⟨_, .number n (c := ' ') rfl h⟩

/-- **A reader that takes all these numbers is short of them** on a text that has only
the first of them. -/
theorem Sequential.short {m : Reader α} (h : Sequential m) {ns rest : List Nat} {a : α}
    (hreads : Reads m (ns ++ rest) a) (hrest : rest ≠ []) {s : InStream} (hs : s.Ends ns) :
    Short m s ns := by
  obtain ⟨text, htext⟩ := exists_spells (ns ++ rest)
  let whole : InStream := ⟨text, false, 0, s.unassigned⟩
  have hholds : whole.Holds ((ns ++ rest) ++ []) := ⟨rfl, by rw [List.append_nil]; exact htext⟩
  have hends : whole.Ends (ns ++ rest) := by
    refine ⟨rfl, ?_⟩
    have happend := htext.append (.blank (c := '\n') rfl .nil)
    rw [List.append_nil] at happend
    exact happend
  obtain ⟨-, hgood, hcount⟩ := hreads whole [] hholds
  rcases h.cut ns rest s whole hs hends hgood.good with hshort | ⟨taken, left, rfl, halike⟩
  · exact hshort
  · -- the whole text has numbers that were not taken
    have hlen := halike.wholeCount.symm.trans hcount
    have hpos := List.length_pos_iff.mpr hrest
    simp only [List.length_append] at hlen
    omega

end CascadePlayground.Text
