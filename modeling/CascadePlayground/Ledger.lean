import Mathlib.Algebra.BigOperators.Group.Finset.Basic
import Mathlib.Algebra.BigOperators.Group.Finset.Piecewise
import Mathlib.Algebra.Ring.Nat
import Mathlib.Data.List.Perm.Basic
import Mathlib.Logic.Function.Basic

/-! Ledgers, and the orders in which postings can be executed.

A `Book` says what is in each account, and which accounts exist. A `Posting`
takes amounts out of existing accounts, never more than is there, and then puts
amounts into accounts, opening those that are missing.

Whether a list of postings can be executed depends on their order as a rule. It
does not when no account is both debited and credited by them (`Separate`): then
the list executes exactly when the book can afford all its debits together, and
leaves the book `settled` (`executeAll_eq_some`), so that any other order
executes too, with the same result (`executeAll_perm`). -/
namespace CascadePlayground.Ledger

variable {κ : Type*} [DecidableEq κ]

/-- What each account holds; `none` where there is no account. -/
abbrev Book (κ : Type*) := κ → Option Nat

/-- What an account holds, nothing if there is none. -/
def Book.value (b : Book κ) (k : κ) : Nat := (b k).getD 0

structure Posting (κ : Type*) where
  debits : List (κ × Nat)
  credits : List (κ × Nat)

def debit (b : Book κ) (e : κ × Nat) : Option (Book κ) :=
  match b e.1 with
  | some v => if e.2 ≤ v then some (Function.update b e.1 (some (v - e.2))) else none
  | none => none

def credit (b : Book κ) (e : κ × Nat) : Book κ :=
  Function.update b e.1 (some (b.value e.1 + e.2))

def debitAll (b : Book κ) (l : List (κ × Nat)) : Option (Book κ) := l.foldlM debit b

def creditAll (b : Book κ) (l : List (κ × Nat)) : Book κ := l.foldl credit b

def execute (b : Book κ) (p : Posting κ) : Option (Book κ) :=
  (debitAll b p.debits).map fun b => creditAll b p.credits

def executeAll (b : Book κ) (ps : List (Posting κ)) : Option (Book κ) := ps.foldlM execute b

/-! ### Totals -/

/-- What a list of entries posts to an account. -/
def total (l : List (κ × Nat)) (k : κ) : Nat := (l.map fun e => if e.1 = k then e.2 else 0).sum

@[simp] theorem total_nil (k : κ) : total [] k = 0 := rfl

@[simp] theorem total_cons (e : κ × Nat) (l : List (κ × Nat)) (k : κ) :
    total (e :: l) k = (if e.1 = k then e.2 else 0) + total l k := by
  simp [total]

@[simp] theorem total_append (l l' : List (κ × Nat)) (k : κ) :
    total (l ++ l') k = total l k + total l' k := by
  simp [total]

theorem total_perm {l l' : List (κ × Nat)} (h : l.Perm l') (k : κ) : total l k = total l' k :=
  (h.map _).sum_eq

theorem total_eq_zero {l : List (κ × Nat)} {k : κ} (h : k ∉ l.map Prod.fst) : total l k = 0 := by
  induction l with
  | nil => rfl
  | cons e l ih =>
    simp only [List.map_cons, List.mem_cons, not_or] at h
    rw [total_cons, if_neg (Ne.symm h.1), ih h.2]

/-! ### Debits -/

/-- Every account debited exists and holds all that is taken out of it. -/
def Affords (b : Book κ) (l : List (κ × Nat)) : Prop :=
  ∀ k ∈ l.map Prod.fst, ∃ v, b k = some v ∧ total l k ≤ v

def withdrawn (b : Book κ) (l : List (κ × Nat)) : Book κ := fun k => (b k).map (· - total l k)

theorem affords_cons (b : Book κ) (e : κ × Nat) (l : List (κ × Nat)) :
    Affords b (e :: l) ↔ ∃ b', debit b e = some b' ∧ Affords b' l := by
  constructor
  · intro h
    obtain ⟨v, hv, ht⟩ := h e.1 (by simp)
    rw [total_cons, if_pos rfl] at ht
    refine ⟨_, by unfold debit; rw [hv]; exact if_pos (by omega), fun k hk => ?_⟩
    obtain ⟨w, hw, hle⟩ := h k (by simpa using Or.inr (by simpa using hk))
    rw [total_cons] at hle
    by_cases he : e.1 = k
    · subst he
      rw [hv] at hw
      cases hw
      exact ⟨v - e.2, by simp, by omega⟩
    · rw [if_neg he] at hle
      exact ⟨w, by rw [Function.update_of_ne (Ne.symm he)]; exact hw, by omega⟩
  · rintro ⟨b', hb', h⟩ k hk
    unfold debit at hb'
    split at hb'
    · next v hv =>
      split at hb'
      · next hle =>
        obtain rfl := Option.some.inj hb'
        rw [total_cons]
        by_cases he : e.1 = k
        · subst he
          rw [if_pos rfl]
          refine ⟨v, hv, ?_⟩
          by_cases hl : e.1 ∈ l.map Prod.fst
          · obtain ⟨w, hw, hlt⟩ := h _ hl
            simp only [Function.update_self, Option.some.injEq] at hw
            omega
          · rw [total_eq_zero hl]
            omega
        · have hl : k ∈ l.map Prod.fst := by
            simp only [List.map_cons, List.mem_cons] at hk
            exact hk.resolve_left (Ne.symm he)
          obtain ⟨w, hw, hlt⟩ := h k hl
          rw [Function.update_of_ne (Ne.symm he)] at hw
          exact ⟨w, hw, by rw [if_neg he]; omega⟩
      · cases hb'
    · cases hb'

theorem withdrawn_cons {b b' : Book κ} {e : κ × Nat} (h : debit b e = some b')
    (l : List (κ × Nat)) : withdrawn b' l = withdrawn b (e :: l) := by
  unfold debit at h
  split at h
  · next v hv =>
    split at h
    · obtain rfl := Option.some.inj h
      funext k
      unfold withdrawn
      rw [total_cons]
      by_cases he : e.1 = k
      · subst he
        simp [hv, Nat.sub_sub]
      · rw [Function.update_of_ne (Ne.symm he), if_neg he, Nat.zero_add]
    · cases h
  · cases h

/-- The debits go through exactly when the book affords them together. -/
theorem debitAll_eq_some (b b' : Book κ) (l : List (κ × Nat)) :
    debitAll b l = some b' ↔ Affords b l ∧ b' = withdrawn b l := by
  induction l generalizing b with
  | nil =>
    have : withdrawn b [] = b := by
      funext k
      simp [withdrawn]
    simp [debitAll, Affords, this, eq_comm]
  | cons e l ih =>
    have hcons : debitAll b (e :: l) = (debit b e).bind fun b => debitAll b l := by
      simp [debitAll, List.foldlM_cons]
    rw [hcons, Option.bind_eq_some_iff, affords_cons]
    constructor
    · rintro ⟨c, hc, hl⟩
      obtain ⟨ha, rfl⟩ := (ih c).mp hl
      exact ⟨⟨c, hc, ha⟩, withdrawn_cons hc l⟩
    · rintro ⟨⟨c, hc, ha⟩, rfl⟩
      exact ⟨c, hc, (ih c).mpr ⟨ha, (withdrawn_cons hc l).symm⟩⟩

/-! ### Credits -/

theorem creditAll_apply (b : Book κ) (l : List (κ × Nat)) (k : κ) :
    creditAll b l k = if k ∈ l.map Prod.fst then some (b.value k + total l k) else b k := by
  induction l generalizing b with
  | nil => rfl
  | cons e l ih =>
    have hcons : creditAll b (e :: l) = creditAll (credit b e) l := rfl
    rw [hcons, ih, total_cons]
    by_cases he : e.1 = k
    · subst he
      by_cases hl : e.1 ∈ l.map Prod.fst
      · rw [if_pos hl, if_pos (by simp), if_pos rfl]
        simp [Book.value, credit, Nat.add_assoc]
      · rw [if_neg hl, if_pos (by simp), if_pos rfl, total_eq_zero hl]
        simp [credit]
    · have hk : (k ∈ (e :: l).map Prod.fst) ↔ k ∈ l.map Prod.fst := by
        simp only [List.map_cons, List.mem_cons]
        exact or_iff_right (Ne.symm he)
      have hc : credit b e k = b k := Function.update_of_ne (Ne.symm he) _ _
      have hv : (credit b e).value k = b.value k := by rw [Book.value, hc]; rfl
      simp only [hk, if_neg he, Nat.zero_add, hv, hc]

theorem creditAll_value (b : Book κ) (l : List (κ × Nat)) (k : κ) :
    (creditAll b l).value k = b.value k + total l k := by
  rw [Book.value, creditAll_apply]
  split
  · rfl
  · next h => rw [total_eq_zero h]; rfl

/-! ### Postings -/

def allDebits (ps : List (Posting κ)) : List (κ × Nat) := ps.flatMap Posting.debits

def allCredits (ps : List (Posting κ)) : List (κ × Nat) := ps.flatMap Posting.credits

omit [DecidableEq κ] in
@[simp] theorem allDebits_cons (p : Posting κ) (ps : List (Posting κ)) :
    allDebits (p :: ps) = p.debits ++ allDebits ps := rfl

omit [DecidableEq κ] in
@[simp] theorem allCredits_cons (p : Posting κ) (ps : List (Posting κ)) :
    allCredits (p :: ps) = p.credits ++ allCredits ps := rfl

/-- No account is both debited and credited. -/
def Separate (ps : List (Posting κ)) : Prop :=
  ∀ k ∈ (allDebits ps).map Prod.fst, k ∉ (allCredits ps).map Prod.fst

/-- The book after the postings, from their totals alone. -/
def settled (b : Book κ) (ps : List (Posting κ)) : Book κ :=
  creditAll (withdrawn b (allDebits ps)) (allCredits ps)

theorem execute_eq_some (b b' : Book κ) (p : Posting κ) :
    execute b p = some b' ↔ Affords b p.debits ∧ b' = creditAll (withdrawn b p.debits) p.credits := by
  unfold execute
  rw [Option.map_eq_some_iff]
  constructor
  · rintro ⟨c, hc, rfl⟩
    obtain ⟨ha, rfl⟩ := (debitAll_eq_some b c p.debits).mp hc
    exact ⟨ha, rfl⟩
  · rintro ⟨ha, rfl⟩
    exact ⟨_, (debitAll_eq_some b _ p.debits).mpr ⟨ha, rfl⟩, rfl⟩

omit [DecidableEq κ] in
theorem Separate.tail {p : Posting κ} {ps : List (Posting κ)} (h : Separate (p :: ps)) :
    Separate ps := by
  intro k hd hc
  refine h k ?_ ?_
  · simp only [allDebits_cons, List.map_append, List.mem_append]
    exact .inr hd
  · simp only [allCredits_cons, List.map_append, List.mem_append]
    exact .inr hc

omit [DecidableEq κ] in
/-- An account debited later is out of reach of the first posting's credits. -/
theorem Separate.head {p : Posting κ} {ps : List (Posting κ)} (h : Separate (p :: ps)) {k : κ}
    (hk : k ∈ (allDebits (p :: ps)).map Prod.fst) : k ∉ p.credits.map Prod.fst := by
  intro hc
  refine h k hk ?_
  simp only [allCredits_cons, List.map_append, List.mem_append]
  exact .inl hc

theorem affords_append (b : Book κ) (l l' : List (κ × Nat)) :
    Affords b (l ++ l') ↔ Affords b l ∧ Affords (withdrawn b l) l' := by
  induction l generalizing b with
  | nil =>
    have : withdrawn b [] = b := by
      funext k
      simp [withdrawn]
    simp [Affords, this]
  | cons e l ih =>
    rw [List.cons_append, affords_cons, affords_cons]
    constructor
    · rintro ⟨c, hc, h⟩
      obtain ⟨h1, h2⟩ := (ih c).mp h
      exact ⟨⟨c, hc, h1⟩, by rw [← withdrawn_cons hc]; exact h2⟩
    · rintro ⟨⟨c, hc, h1⟩, h2⟩
      exact ⟨c, hc, (ih c).mpr ⟨h1, by rw [withdrawn_cons hc]; exact h2⟩⟩

/-- Credits do not matter to debits of other accounts. -/
theorem affords_creditAll (b : Book κ) (c l : List (κ × Nat))
    (h : ∀ k ∈ l.map Prod.fst, k ∉ c.map Prod.fst) : Affords (creditAll b c) l ↔ Affords b l := by
  unfold Affords
  refine forall₂_congr fun k hk => ?_
  rw [creditAll_apply, if_neg (h k hk)]

theorem settled_cons (b : Book κ) (p : Posting κ) (ps : List (Posting κ)) (h : Separate (p :: ps)) :
    settled (creditAll (withdrawn b p.debits) p.credits) ps = settled b (p :: ps) := by
  funext k
  by_cases hd : k ∈ (allDebits (p :: ps)).map Prod.fst
  · -- debited: no credit of any posting reaches it
    have hc := h k hd
    have hp := h.head hd
    have hps : k ∉ (allCredits ps).map Prod.fst := fun hk => hc (by simp [hk])
    simp only [settled, creditAll_apply, if_neg hc, if_neg hps, withdrawn, if_neg hp, allDebits_cons,
      total_append, Option.map_map]
    congr 1
    funext v
    simp only [Function.comp_apply]
    omega
  · -- credited at most: nothing is taken out
    have h0 : total (allDebits (p :: ps)) k = 0 := total_eq_zero hd
    have h1 : total p.debits k = 0 := by
      rw [allDebits_cons, total_append] at h0
      omega
    have h2 : total (allDebits ps) k = 0 := by
      rw [allDebits_cons, total_append] at h0
      omega
    simp only [settled, creditAll_apply, withdrawn, h0, h1, h2, Book.value, allCredits_cons,
      List.map_append, List.mem_append, total_append]
    by_cases hp : k ∈ p.credits.map Prod.fst <;> by_cases hps : k ∈ (allCredits ps).map Prod.fst
    · simp [hp, hps, Nat.add_assoc]
    · simp [hp, hps, total_eq_zero hps]
    · simp [hp, hps, total_eq_zero hp]
    · simp [hp, hps]

/-- **When no account is both debited and credited**, postings execute exactly
when all their debits together can be afforded, and leave the settled book. -/
theorem executeAll_eq_some (ps : List (Posting κ)) (h : Separate ps) (b b' : Book κ) :
    executeAll b ps = some b' ↔ Affords b (allDebits ps) ∧ b' = settled b ps := by
  induction ps generalizing b with
  | nil =>
    have : settled b [] = b := by
      funext k
      simp [settled, withdrawn, creditAll, allDebits, allCredits]
    simp [executeAll, allDebits, Affords, this, eq_comm]
  | cons p ps ih =>
    have hcons : executeAll b (p :: ps) = (execute b p).bind fun b => executeAll b ps := by
      simp [executeAll, List.foldlM_cons]
    have hlater : ∀ k ∈ (allDebits ps).map Prod.fst, k ∉ p.credits.map Prod.fst := fun k hk =>
      h.head (by simp only [allDebits_cons, List.map_append, List.mem_append]; exact .inr hk)
    rw [hcons, Option.bind_eq_some_iff, allDebits_cons, affords_append]
    constructor
    · rintro ⟨c, hc, hps⟩
      obtain ⟨ha, rfl⟩ := (execute_eq_some b c p).mp hc
      obtain ⟨has, rfl⟩ := (ih h.tail _).mp hps
      exact ⟨⟨ha, (affords_creditAll _ _ _ hlater).mp has⟩, settled_cons b p ps h⟩
    · rintro ⟨⟨ha, has⟩, rfl⟩
      refine ⟨_, (execute_eq_some b _ p).mpr ⟨ha, rfl⟩, (ih h.tail _).mpr ⟨?_, ?_⟩⟩
      · exact (affords_creditAll _ _ _ hlater).mpr has
      · exact (settled_cons b p ps h).symm

theorem affords_perm {l l' : List (κ × Nat)} (h : l.Perm l') (b : Book κ) (ha : Affords b l) :
    Affords b l' := by
  intro k hk
  obtain ⟨v, hv, hle⟩ := ha k ((h.map Prod.fst).mem_iff.mpr hk)
  exact ⟨v, hv, by rw [← total_perm h]; exact hle⟩

theorem settled_perm {ps qs : List (Posting κ)} (h : ps.Perm qs) (b : Book κ) :
    settled b ps = settled b qs := by
  have hd : (allDebits ps).Perm (allDebits qs) := h.flatMap_right _
  have hc : (allCredits ps).Perm (allCredits qs) := h.flatMap_right _
  have hw : withdrawn b (allDebits ps) = withdrawn b (allDebits qs) := by
    funext k
    rw [withdrawn, withdrawn, total_perm hd]
  funext k
  simp only [settled, creditAll_apply, hw, total_perm hc, (hc.map Prod.fst).mem_iff]

/-- **Any order executes**, with the same result, if one order does. -/
theorem executeAll_perm {ps qs : List (Posting κ)} (hp : ps.Perm qs) (hs : Separate ps)
    {b b' : Book κ} (h : executeAll b ps = some b') : executeAll b qs = some b' := by
  have hd : (allDebits ps).Perm (allDebits qs) := hp.flatMap_right _
  have hc : (allCredits ps).Perm (allCredits qs) := hp.flatMap_right _
  have hsq : Separate qs := fun k hk hkc =>
    hs k ((hd.map _).mem_iff.mpr hk) ((hc.map _).mem_iff.mpr hkc)
  obtain ⟨ha, rfl⟩ := (executeAll_eq_some ps hs b b').mp h
  exact (executeAll_eq_some qs hsq b _).mpr ⟨affords_perm hd b ha, settled_perm hp b⟩

/-! ### The books balance -/

theorem execute_balance {b b' : Book κ} {p : Posting κ} (h : execute b p = some b') (k : κ) :
    b'.value k + total p.debits k = b.value k + total p.credits k := by
  obtain ⟨ha, rfl⟩ := (execute_eq_some b b' p).mp h
  rw [creditAll_value]
  have hw : (withdrawn b p.debits).value k + total p.debits k = b.value k := by
    by_cases hk : k ∈ p.debits.map Prod.fst
    · obtain ⟨v, hv, hle⟩ := ha k hk
      simp only [Book.value, withdrawn, hv, Option.map_some, Option.getD_some]
      omega
    · simp only [Book.value, withdrawn, total_eq_zero hk, Nat.sub_zero, Nat.add_zero]
      rw [Option.map_id']
  omega

/-- Account by account, what postings take out and put in is what changes. -/
theorem executeAll_balance (ps : List (Posting κ)) {b b' : Book κ} (h : executeAll b ps = some b')
    (k : κ) : b'.value k + total (allDebits ps) k = b.value k + total (allCredits ps) k := by
  induction ps generalizing b with
  | nil => obtain rfl := Option.some.inj h; rfl
  | cons p ps ih =>
    have hcons : executeAll b (p :: ps) = (execute b p).bind fun b => executeAll b ps := by
      simp [executeAll, List.foldlM_cons]
    rw [hcons, Option.bind_eq_some_iff] at h
    obtain ⟨c, hc, hps⟩ := h
    have h1 := execute_balance hc k
    have h2 := ih hps
    rw [allDebits_cons, allCredits_cons, total_append, total_append]
    omega

/-- No posting closes an account. -/
theorem execute_isSome {b b' : Book κ} {p : Posting κ} (h : execute b p = some b') {k : κ}
    (hk : (b k).isSome) : (b' k).isSome := by
  obtain ⟨_, rfl⟩ := (execute_eq_some b b' p).mp h
  rw [creditAll_apply]
  split
  · rfl
  · simpa [withdrawn] using hk

theorem executeAll_isSome (ps : List (Posting κ)) {b b' : Book κ} (h : executeAll b ps = some b')
    {k : κ} (hk : (b k).isSome) : (b' k).isSome := by
  induction ps generalizing b with
  | nil => exact Option.some.inj h ▸ hk
  | cons p ps ih =>
    have hcons : executeAll b (p :: ps) = (execute b p).bind fun b => executeAll b ps := by
      simp [executeAll, List.foldlM_cons]
    rw [hcons, Option.bind_eq_some_iff] at h
    obtain ⟨c, hc, hps⟩ := h
    exact ih hps (execute_isSome hc hk)

/-! ### Groups of accounts -/

/-- What a list of entries posts to the accounts of a group. -/
def posted (K : Finset κ) (l : List (κ × Nat)) : Nat :=
  (l.map fun e => if e.1 ∈ K then e.2 else 0).sum

@[simp] theorem posted_nil (K : Finset κ) : posted K [] = 0 := rfl

@[simp] theorem posted_append (K : Finset κ) (l l' : List (κ × Nat)) :
    posted K (l ++ l') = posted K l + posted K l' := by
  simp [posted]

theorem sum_total (K : Finset κ) (l : List (κ × Nat)) : ∑ k ∈ K, total l k = posted K l := by
  induction l with
  | nil => simp
  | cons e l ih =>
    have hcons : posted K (e :: l) = (if e.1 ∈ K then e.2 else 0) + posted K l := by simp [posted]
    simp only [total_cons, Finset.sum_add_distrib, ih, hcons]
    rw [Finset.sum_ite_eq]

/-- What a group of accounts holds changes by what is put in and taken out. -/
theorem executeAll_sum (K : Finset κ) (ps : List (Posting κ)) {b b' : Book κ}
    (h : executeAll b ps = some b') :
    ∑ k ∈ K, b'.value k + posted K (allDebits ps) = ∑ k ∈ K, b.value k + posted K (allCredits ps) := by
  rw [← sum_total, ← sum_total, ← Finset.sum_add_distrib, ← Finset.sum_add_distrib]
  exact Finset.sum_congr rfl fun k _ => executeAll_balance ps h k

/-! ### Postings that grow -/

theorem executeAll_concat (b : Book κ) (ps : List (Posting κ)) (p : Posting κ) :
    executeAll b (ps ++ [p]) = (executeAll b ps).bind fun b => execute b p := by
  simp [executeAll, List.foldlM_append]

theorem execute_debits_concat (b : Book κ) (l : List (κ × Nat)) (e : κ × Nat) :
    execute b ⟨l ++ [e], []⟩ = (execute b ⟨l, []⟩).bind fun b => debit b e := by
  simp [execute, creditAll, debitAll, List.foldlM_append]

theorem execute_credits_append (b : Book κ) (d l l' : List (κ × Nat)) :
    execute b ⟨d, l ++ l'⟩ = (execute b ⟨d, l⟩).map fun b => creditAll b l' := by
  simp [execute, creditAll, List.foldl_append, Function.comp_def]

end CascadePlayground.Ledger
