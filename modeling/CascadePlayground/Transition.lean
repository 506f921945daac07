import Mathlib.Computability.StateTransition

/-! Runs of transition systems.

A deterministic system is a partial step function `f`, at rest where `f` is
`none`; its runs are Mathlib's `StateTransition.Reaches f`, which unfolds to the
reflexive transitive closure of the relation `b ∈ f a`. The rules here are about
whole runs: what every step preserves holds along a run (`Preserved.run`), a run
on which a well founded measure falls comes to rest (`halts_of_measure`), and a
run that enters a trap does not (`Trap.not_halts`). -/
namespace CascadePlayground.Transition
open StateTransition

variable {σ τ : Type*}

/-- What every step of the relation `r` keeps. -/
def Preserved (r : σ → σ → Prop) (I : σ → Prop) : Prop := ∀ a b, I a → r a b → I b

theorem Preserved.run {r : σ → σ → Prop} {I : σ → Prop} (h : Preserved r I) {a b : σ}
    (hr : Relation.ReflTransGen r a b) (ha : I a) : I b := by
  induction hr with
  | refl => exact ha
  | tail _ hs ih => exact h _ _ ih hs

/-- Where every run ends, one leads to a state at rest. -/
theorem exists_rest {r : σ → σ → Prop} {a : σ} (h : Acc (fun b a => r a b) a) :
    ∃ b, Relation.ReflTransGen r a b ∧ ∀ c, ¬ r b c := by
  induction h with
  | intro a _ ih =>
    by_cases hstep : ∃ b, r a b
    · obtain ⟨b, hb⟩ := hstep
      obtain ⟨c, hc, hrest⟩ := ih b hb
      exact ⟨c, hc.head hb, hrest⟩
    · exact ⟨a, .refl, fun b hb => hstep ⟨b, hb⟩⟩

variable {f : σ → Option σ}

/-- The run from `a` comes to rest. -/
def Halts (f : σ → Option σ) (a : σ) : Prop := ∃ b, Reaches f a b ∧ f b = none

theorem Halts.of_reaches {a b : σ} (h : Halts f a) (hr : Reaches f a b) : Halts f b := by
  obtain ⟨c, hc, hn⟩ := h
  rcases reaches_total hr hc with hbc | hcb
  · exact ⟨c, hbc, hn⟩
  · -- a state at rest reaches itself only
    rcases Relation.ReflTransGen.cases_head hcb with rfl | ⟨d, hd, _⟩
    · exact ⟨c, .refl, hn⟩
    · rw [hn] at hd
      cases hd

/-- A measure that falls with every step, as long as the invariant holds. -/
theorem halts_of_measure {r : τ → τ → Prop} (wf : WellFounded r) (measure : σ → τ)
    {I : σ → Prop} (hI : Preserved (fun a b => b ∈ f a) I)
    (hfall : ∀ a b, I a → b ∈ f a → r (measure b) (measure a)) (a : σ) (ha : I a) :
    Halts f a := by
  induction h : measure a using wf.induction generalizing a with
  | _ m ih =>
    subst h
    cases hf : f a with
    | none => exact ⟨a, .refl, hf⟩
    | some b =>
      obtain ⟨c, hc, hn⟩ := ih _ (hfall a b ha hf) b (hI a b ha hf) rfl
      exact ⟨c, hc.head hf, hn⟩

/-- States from which the run goes on, to such a state again. -/
def Trap (f : σ → Option σ) (S : σ → Prop) : Prop := ∀ a, S a → ∃ b, f a = some b ∧ S b

theorem Trap.preserved {S : σ → Prop} (h : Trap f S) : Preserved (fun a b => b ∈ f a) S := by
  intro a b hSa hb
  obtain ⟨b', hb', hSb⟩ := h a hSa
  rw [hb'] at hb
  exact Option.some.inj hb ▸ hSb

theorem Trap.not_halts {S : σ → Prop} (h : Trap f S) {a : σ} (ha : S a) : ¬ Halts f a := by
  intro hh
  obtain ⟨c, hc, hn⟩ := hh
  obtain ⟨b, hb, _⟩ := h c (h.preserved.run hc ha)
  rw [hn] at hb
  cases hb

/-- At most `n` steps from `a`, computed. -/
def run (f : σ → Option σ) : Nat → σ → σ
  | 0, a => a
  | n + 1, a => match f a with
    | none => a
    | some b => run f n b

theorem reaches_run (f : σ → Option σ) (n : Nat) (a : σ) : Reaches f a (run f n a) := by
  induction n generalizing a with
  | zero => exact .refl
  | succ n ih =>
    unfold run
    split
    · exact .refl
    · next b hb => exact (ih b).head hb

theorem run_one {a : σ} (h : (f a).isSome = true) : run f 1 a ∈ f a := by
  obtain ⟨b, hb⟩ := Option.isSome_iff_exists.mp h
  simp only [run, hb, Option.mem_def]

end CascadePlayground.Transition
