import CascadePlayground.Transition
import Mathlib.Logic.Function.Basic

/-! Programs that call a shared object, alone and interleaved.

A `Program` is what one client does: it makes atomic calls, one after another,
and goes on with the replies. `act` is the object: what a call replies, and what
it leaves. `run` runs a program with the object to itself.

A `Config` is an object and its clients, and a step is one call by one of them,
as long as its `guard` admits it. What holds of an interleaving is shown program
by program: `Keeps` says that a program stays within `R`, whatever the others do
within `R` between its calls, that it fails in no other way than `F` allows, and
that it ends in `Q`. Then it still does after any steps of any of the clients
(`Keeps.reached`). -/
namespace CascadePlayground

inductive Program (Op : Type) (Reply : Op → Type) (ε α : Type) where
  | done (a : α)
  | call (op : Op) (k : Reply op → Program Op Reply ε α)
  | fail (e : ε)

namespace Program
variable {Op : Type} {Reply : Op → Type} {ε σ ι α β : Type}

def bind : Program Op Reply ε α → (α → Program Op Reply ε β) → Program Op Reply ε β
  | done a, f => f a
  | call op k, f => call op fun r => (k r).bind f
  | fail e, _ => fail e

instance : Monad (Program Op Reply ε) where
  pure := done
  bind := bind

instance : LawfulMonad (Program Op Reply ε) := by
  refine .mk' _ (fun m => ?_) (fun _ _ => rfl) fun m f g => ?_
  · induction m with
    | done a => rfl
    | call op k ih => exact congrArg (call op) (funext ih)
    | fail e => rfl
  · induction m with
    | done a => rfl
    | call op k ih => exact congrArg (call op) (funext ih)
    | fail e => rfl

/-- The program that makes one call. -/
def perform (op : Op) : Program Op Reply ε (Reply op) := call op done

variable (act : (op : Op) → σ → Reply op × σ)

/-! ### Alone -/

def run : Program Op Reply ε α → σ → Except ε (α × σ)
  | done a, s => .ok (a, s)
  | call op k, s => (k (act op s).1).run (act op s).2
  | fail e, _ => .error e

@[simp] theorem run_pure (a : α) (s : σ) :
    (pure a : Program Op Reply ε α).run act s = .ok (a, s) := rfl

@[simp] theorem run_bind (m : Program Op Reply ε α) (f : α → Program Op Reply ε β) (s : σ) :
    (m >>= f).run act s = match m.run act s with
      | .ok x => (f x.1).run act x.2
      | .error e => .error e := by
  induction m generalizing s with
  | done a => rfl
  | call op k ih => exact ih _ _
  | fail e => rfl

@[simp] theorem run_map (m : Program Op Reply ε α) (f : α → β) (s : σ) :
    (f <$> m).run act s = match m.run act s with
      | .ok x => .ok (f x.1, x.2)
      | .error e => .error e := run_bind act m _ s

/-! ### Interleaved -/

structure Config (Op : Type) (Reply : Op → Type) (ε σ ι α : Type) where
  shared : σ
  clients : ι → Program Op Reply ε α

variable [DecidableEq ι] (guard : ι → Op → σ → Bool)

/-- The next call of client `i`. -/
def stepOf (c : Config Op Reply ε σ ι α) (i : ι) : Option (Config Op Reply ε σ ι α) :=
  match c.clients i with
  | call op k =>
    if guard i op c.shared then
      some ⟨(act op c.shared).2, Function.update c.clients i (k (act op c.shared).1)⟩
    else none
  | done _ | fail _ => none

def Step (c c' : Config Op Reply ε σ ι α) : Prop := ∃ i, stepOf act guard c i = some c'

/-- The clients call in this order. -/
def schedule (c : Config Op Reply ε σ ι α) : List ι → Option (Config Op Reply ε σ ι α)
  | [] => some c
  | i :: is => (stepOf act guard c i).bind fun c' => schedule c' is

theorem reaches_schedule {c c' : Config Op Reply ε σ ι α} (is : List ι)
    (h : schedule act guard c is = some c') : Relation.ReflTransGen (Step act guard) c c' := by
  induction is generalizing c with
  | nil => exact Option.some.inj h ▸ .refl
  | cons i is ih =>
    obtain ⟨d, hd, hrest⟩ := Option.bind_eq_some_iff.mp h
    exact (ih hrest).head ⟨i, hd⟩

/-! ### Staying within a relation -/

/-- Whatever happens within `R` before each of its calls, the program makes its
calls within `R` as far as `admits` lets it, and has `Q` whenever it is done. -/
def Keeps (admits : Op → σ → Bool) (R : σ → σ → Prop) (F : ε → Prop) (Q : α → σ → Prop) :
    Program Op Reply ε α → σ → Prop
  | done a, s => ∀ s', R s s' → Q a s'
  | call op k, s => ∀ s', R s s' → admits op s' = true →
      R s' (act op s').2 ∧ (k (act op s').1).Keeps admits R F Q (act op s').2
  | fail e, _ => F e

section Keeps
variable {act} {admits : Op → σ → Bool} {R : σ → σ → Prop} {F : ε → Prop} {Q : α → σ → Prop}

theorem Keeps.later (htrans : ∀ a b c, R a b → R b c → R a c) {q : Program Op Reply ε α} {s s' : σ}
    (h : q.Keeps act admits R F Q s) (hs : R s s') : q.Keeps act admits R F Q s' := by
  cases q with
  | done a => exact fun t ht => h t (htrans _ _ _ hs ht)
  | call op k => exact fun t ht => h t (htrans _ _ _ hs ht)
  | fail e => exact h

theorem Keeps.imp {q : Program Op Reply ε α} {s : σ} {P : α → σ → Prop}
    (h : q.Keeps act admits R F P s) (hQ : ∀ a s, P a s → Q a s) : q.Keeps act admits R F Q s := by
  induction q generalizing s with
  | done a => exact fun t ht => hQ a t (h t ht)
  | call op k ih =>
    intro t ht hg
    obtain ⟨hR, hk⟩ := h t ht hg
    exact ⟨hR, ih _ hk⟩
  | fail e => exact h

theorem Keeps.bind (hrefl : ∀ s, R s s) {m : Program Op Reply ε β} {f : β → Program Op Reply ε α} {s : σ}
    {P : β → σ → Prop} (h : m.Keeps act admits R F P s)
    (hf : ∀ b s, P b s → (f b).Keeps act admits R F Q s) : (m >>= f).Keeps act admits R F Q s := by
  induction m generalizing s with
  | done b => exact hf b s (h s (hrefl s))
  | call op k ih =>
    intro s' hs' hg
    obtain ⟨hR, hk⟩ := h s' hs' hg
    exact ⟨hR, ih _ hk⟩
  | fail e => exact h

theorem Keeps.perform {op : Op} {s : σ} {Q : Reply op → σ → Prop}
    (h : ∀ s', R s s' → admits op s' = true →
      R s' (act op s').2 ∧ ∀ t, R (act op s').2 t → Q (act op s').1 t) :
    (Program.perform op : Program Op Reply ε (Reply op)).Keeps act admits R F Q s := h

theorem Keeps.of_fail {q : Program Op Reply ε α} {s : σ} {e : ε} (h : q.Keeps act admits R F Q s)
    (hq : q = fail e) : F e := by
  rw [hq] at h
  exact h

theorem Keeps.of_done (hrefl : ∀ s, R s s) {q : Program Op Reply ε α} {s : σ} {a : α}
    (h : q.Keeps act admits R F Q s) (hq : q = done a) : Q a s := by
  rw [hq] at h
  exact h s (hrefl s)

end Keeps

variable {act guard} {R : σ → σ → Prop} {F : ι → ε → Prop} {Q : ι → α → σ → Prop}

/-- A step of one client keeps every program as it should be. -/
theorem Keeps.step (hrefl : ∀ s, R s s) (htrans : ∀ a b c, R a b → R b c → R a c) :
    Transition.Preserved (Step act guard) fun c : Config Op Reply ε σ ι α =>
      ∀ i, (c.clients i).Keeps act (guard i) R (F i) (Q i) c.shared := by
  intro c c' h hstep j
  obtain ⟨i, hi⟩ := hstep
  have hkeeps := h i
  unfold stepOf at hi
  split at hi
  · next op k hc =>
    split at hi
    · next hg =>
      obtain rfl := Option.some.inj hi
      rw [hc] at hkeeps
      obtain ⟨hR, hk⟩ := hkeeps c.shared (hrefl _) hg
      by_cases hj : j = i
      · subst hj
        show (Function.update c.clients j _ j).Keeps act (guard j) R (F j) (Q j) _
        rw [Function.update_self]
        exact hk
      · show (Function.update c.clients i _ j).Keeps act (guard j) R (F j) (Q j) _
        rw [Function.update_of_ne hj]
        -- the others see a change within `R`
        exact (h j).later htrans hR
    · cases hi
  · cases hi
  · cases hi

theorem Keeps.reached (hrefl : ∀ s, R s s) (htrans : ∀ a b c, R a b → R b c → R a c)
    {c c' : Config Op Reply ε σ ι α}
    (h : ∀ i, (c.clients i).Keeps act (guard i) R (F i) (Q i) c.shared)
    (hr : Relation.ReflTransGen (Step act guard) c c') (i : ι) :
    (c'.clients i).Keeps act (guard i) R (F i) (Q i) c'.shared :=
  (Keeps.step hrefl htrans).run hr h i

end Program
end CascadePlayground
