import CascadePlayground.Program
import Mathlib.Algebra.BigOperators.Group.List.Basic
import Mathlib.Logic.Hydra

/-! Programs that start one another.

A `Pool` is an object and the processes that call it, each a program under a tag that
says what it was started for. A step is one call by one of them, and `spawn` says which
processes the call starts. A process that is done stays in the pool, with what it has
returned.

What holds of all processes is shown call by call (`keepsAll_step`), and what they
carry between them is counted by weights (`total_step`). A run of a pool comes to an end
when calls start processes of a lower level only (`acc_of_below`): in every step one
process is replaced by finitely many smaller ones. -/
namespace CascadePlayground

namespace Program
variable {Op : Type} {Reply : Op → Type} {ε α β : Type}

/-! ### What a program does, call by call -/

/-- The program makes no calls but those of `P`, as long as the replies are in `G`; it fails
only as `F` allows, and what it returns is in `Q`. -/
def Obeys (P : Op → Prop) (G : (op : Op) → Reply op → Prop) (F : ε → Prop) (Q : α → Prop) :
    Program Op Reply ε α → Prop
  | done a => Q a
  | call op k => P op ∧ ∀ r, G op r → (k r).Obeys P G F Q
  | fail e => F e

/-- The same, and the program ends with a call of `last`: it makes exactly one of them, after
which it is done. -/
def EndsWith (P last : Op → Prop) (G : (op : Op) → Reply op → Prop) (F : ε → Prop) (Q : α → Prop) :
    Program Op Reply ε α → Prop
  | done _ => False
  | call op k => (P op ∧ ∀ r, G op r → (k r).EndsWith P last G F Q) ∨
      (last op ∧ ∀ r, ∃ a, k r = done a ∧ Q a)
  | fail e => F e

/-- The program makes no calls but those of `P`, whatever the replies. -/
abbrev Calls (P : Op → Prop) (m : Program Op Reply ε α) : Prop :=
  m.Obeys P (fun _ _ => True) (fun _ => True) fun _ => True

def isDone : Program Op Reply ε α → Bool
  | done _ => true
  | _ => false

/-- The next call. -/
def next? : Program Op Reply ε α → Option Op
  | call op _ => some op
  | _ => none

/-- The next call is the last one. -/
def LastCall : Program Op Reply ε α → Prop
  | call _ k => ∀ r, (k r).isDone = true
  | _ => False

@[simp] theorem isDone_done (a : α) : (done a : Program Op Reply ε α).isDone = true := rfl

@[simp] theorem isDone_call (op : Op) (k : Reply op → Program Op Reply ε α) :
    (call op k).isDone = false := rfl

@[simp] theorem isDone_fail (e : ε) : (fail e : Program Op Reply ε α).isDone = false := rfl

section Rules
variable {P last : Op → Prop} {G : (op : Op) → Reply op → Prop} {F : ε → Prop} {Q : α → Prop}

theorem Obeys.imp {m : Program Op Reply ε α} {P' : Op → Prop} {Q' : α → Prop} (h : m.Obeys P G F Q)
    (hP : ∀ op, P op → P' op) (hQ : ∀ a, Q a → Q' a) : m.Obeys P' G F Q' := by
  induction m with
  | done a => exact hQ a h
  | call op k ih => exact ⟨hP op h.1, fun r hr => ih r (h.2 r hr)⟩
  | fail e => exact h

theorem Obeys.pure {a : α} (h : Q a) : (pure a : Program Op Reply ε α).Obeys P G F Q := h

theorem Obeys.bind {m : Program Op Reply ε β} {f : β → Program Op Reply ε α} {R : β → Prop}
    (h : m.Obeys P G F R) (hf : ∀ b, R b → (f b).Obeys P G F Q) : (m >>= f).Obeys P G F Q := by
  induction m with
  | done b => exact hf b h
  | call op k ih => exact ⟨h.1, fun r hr => ih r (h.2 r hr)⟩
  | fail e => exact h

theorem Obeys.perform {op : Op} {Q : Reply op → Prop} (h : P op) (hQ : ∀ r, G op r → Q r) :
    (Program.perform op : Program Op Reply ε (Reply op)).Obeys P G F Q := ⟨h, hQ⟩

theorem Obeys.forM {ι : Type} {l : List ι} {body : ι → Program Op Reply ε Unit}
    (h : ∀ x ∈ l, (body x).Obeys P G F fun _ => True) : (l.forM body).Obeys P G F fun _ => True := by
  induction l with
  | nil => exact True.intro
  | cons x l ih =>
    exact (h x (List.mem_cons_self ..)).bind fun _ _ => ih fun y hy => h y (List.mem_cons_of_mem _ hy)

theorem Obeys.mapM {ι : Type} {l : List ι} {body : ι → Program Op Reply ε β}
    (h : ∀ x ∈ l, (body x).Obeys P G F fun _ => True) : (l.mapM body).Obeys P G F fun _ => True := by
  induction l with
  | nil => exact True.intro
  | cons x l ih =>
    rw [List.mapM_cons]
    refine (h x (List.mem_cons_self ..)).bind fun _ _ => ?_
    exact (ih fun y hy => h y (List.mem_cons_of_mem _ hy)).bind fun _ _ => True.intro

theorem calls_of_forall (h : ∀ op, P op) (m : Program Op Reply ε α) : m.Calls P := by
  induction m with
  | done a => exact True.intro
  | call op k ih => exact ⟨h op, fun r _ => ih r⟩
  | fail e => exact True.intro

theorem EndsWith.bind {m : Program Op Reply ε β} {f : β → Program Op Reply ε α} {R : β → Prop}
    (h : m.Obeys P G F R) (hf : ∀ b, R b → (f b).EndsWith P last G F Q) :
    (m >>= f).EndsWith P last G F Q := by
  induction m with
  | done b => exact hf b h
  | call op k ih => exact .inl ⟨h.1, fun r hr => ih r (h.2 r hr)⟩
  | fail e => exact h

theorem EndsWith.perform {op : Op} {Q : Reply op → Prop} (h : last op) (hQ : ∀ r, Q r) :
    (Program.perform op : Program Op Reply ε (Reply op)).EndsWith P last G F Q :=
  .inr ⟨h, fun r => ⟨r, rfl, hQ r⟩⟩

theorem EndsWith.bind_pure {m : Program Op Reply ε β} {f : β → α} {R : β → Prop}
    (h : m.EndsWith P last G F R) (hf : ∀ b, R b → Q (f b)) :
    (m >>= fun b => pure (f b)).EndsWith P last G F Q := by
  induction m with
  | done b => cases h
  | call op k ih =>
    rcases h with ⟨hop, hk⟩ | ⟨hop, hk⟩
    · exact .inl ⟨hop, fun r hr => ih r (hk r hr)⟩
    · refine .inr ⟨hop, fun r => ?_⟩
      obtain ⟨b, hb, hR⟩ := hk r
      refine ⟨f b, ?_, hf b hR⟩
      show (k r >>= fun b => pure (f b)) = _
      rw [hb]
      rfl
  | fail e => exact h

theorem EndsWith.not_done {m : Program Op Reply ε α} (h : m.EndsWith P last G F Q) :
    m.isDone = false := by
  cases m with
  | done a => cases h
  | call op k => rfl
  | fail e => rfl

/-- A call that the others cannot be is the last one. -/
theorem EndsWith.lastCall {op : Op} {k : Reply op → Program Op Reply ε α}
    (h : (call op k).EndsWith P last G F Q) (hop : ¬ P op) : (call op k).LastCall := by
  rcases h with ⟨hP, _⟩ | ⟨_, hk⟩
  · exact absurd hP hop
  · intro r
    obtain ⟨a, ha, _⟩ := hk r
    rw [ha]
    rfl

end Rules

/-- What is left of a program after its next call. -/
inductive Next : Program Op Reply ε α → Program Op Reply ε α → Prop where
  | reply (op : Op) (k : Reply op → Program Op Reply ε α) (r : Reply op) : Next (k r) (call op k)

theorem wellFounded_next : WellFounded (Next : Program Op Reply ε α → Program Op Reply ε α → Prop) := by
  refine ⟨fun m => ?_⟩
  induction m with
  | done a => exact ⟨_, fun m' h => by cases h⟩
  | call op k ih =>
    refine ⟨_, fun m' h => ?_⟩
    cases h
    exact ih _
  | fail e => exact ⟨_, fun m' h => by cases h⟩

end Program

/-- What it was started for, and what it has left to do. -/
structure Process (τ Op : Type) (Reply : Op → Type) (ε α : Type) where
  tag : τ
  program : Program Op Reply ε α

structure Pool (τ Op : Type) (Reply : Op → Type) (ε σ α : Type) where
  shared : σ
  processes : List (Process τ Op Reply ε α)

namespace Pool
open Program
variable {τ Op : Type} {Reply : Op → Type} {ε σ α : Type}
variable (act : (op : Op) → σ → Reply op × σ) (spawn : Op → List (Process τ Op Reply ε α))

/-- The next call of the process at place `i`. -/
def stepAt (c : Pool τ Op Reply ε σ α) (i : Nat) : Option (Pool τ Op Reply ε σ α) :=
  match c.processes[i]? with
  | some ⟨tag, call op k⟩ =>
    some ⟨(act op c.shared).2, c.processes.set i ⟨tag, k (act op c.shared).1⟩ ++ spawn op⟩
  | _ => none

def Step (c c' : Pool τ Op Reply ε σ α) : Prop := ∃ i, stepAt act spawn c i = some c'

/-- The processes call in this order. -/
def schedule (c : Pool τ Op Reply ε σ α) : List Nat → Option (Pool τ Op Reply ε σ α)
  | [] => some c
  | i :: is => (stepAt act spawn c i).bind fun c' => schedule c' is

theorem reaches_schedule {c c' : Pool τ Op Reply ε σ α} (is : List Nat)
    (h : schedule act spawn c is = some c') : Relation.ReflTransGen (Step act spawn) c c' := by
  induction is generalizing c with
  | nil => exact Option.some.inj h ▸ .refl
  | cons i is ih =>
    obtain ⟨d, hd, hrest⟩ := Option.bind_eq_some_iff.mp h
    exact (ih hrest).head ⟨i, hd⟩

variable {act spawn} {c c' : Pool τ Op Reply ε σ α}

/-- What a step can do: one process makes its next call, and others are started behind the last. -/
theorem Step.split (h : Step act spawn c c') :
    ∃ before tag op k after, c.processes = before ++ ⟨tag, call op k⟩ :: after ∧
      c' = ⟨(act op c.shared).2,
        before ++ ⟨tag, k (act op c.shared).1⟩ :: after ++ spawn op⟩ := by
  obtain ⟨i, hi⟩ := h
  unfold stepAt at hi
  split at hi
  · next tag op k hget =>
    obtain ⟨hlt, hx⟩ := List.getElem?_eq_some_iff.mp hget
    refine ⟨c.processes.take i, tag, op, k, c.processes.drop (i + 1), ?_, ?_⟩
    · rw [← hx, List.getElem_cons_drop, List.take_append_drop]
    · rw [← Option.some.inj hi, List.set_eq_take_append_cons_drop, if_pos hlt]
  · cases hi

/-- A process that can call makes a step possible. -/
theorem exists_step {x : Process τ Op Reply ε α} (hx : x ∈ c.processes) {op : Op}
    {k : Reply op → Program Op Reply ε α} (hcall : x.program = call op k) :
    ∃ c', Step act spawn c c' := by
  obtain ⟨i, hi, rfl⟩ := List.mem_iff_getElem.mp hx
  have hget : c.processes[i]? = some ⟨c.processes[i].tag, call op k⟩ := by
    rw [List.getElem?_eq_getElem hi, ← hcall]
  refine ⟨⟨(act op c.shared).2,
    c.processes.set i ⟨c.processes[i].tag, k (act op c.shared).1⟩ ++ spawn op⟩, i, ?_⟩
  simp only [stepAt, hget]

theorem rest_of_isDone (h : ∀ x ∈ c.processes, x.program.isDone = true) (d : Pool τ Op Reply ε σ α) :
    ¬ Step act spawn c d := by
  intro hstep
  obtain ⟨before, tag, op, k, after, hp, _⟩ := hstep.split
  cases h ⟨tag, call op k⟩ (by rw [hp]; simp)

/-- The processes after a step. -/
theorem mem_after_step {before after new : List (Process τ Op Reply ε α)} {x y : Process τ Op Reply ε α} :
    x ∈ before ++ y :: after ++ new ↔ (x ∈ before ∨ x ∈ after) ∨ x = y ∨ x ∈ new := by
  simp only [List.mem_append, List.mem_cons]
  tauto

/-! ### Invariants -/

/-- What holds of the object and of each of its processes, if every call keeps it and the others
do not disturb it. -/
theorem keepsAll_step {J : σ → Prop} {P : Process τ Op Reply ε α → σ → Prop} {R : σ → σ → Prop}
    (hstable : ∀ x s s', R s s' → P x s → P x s')
    (hcall : ∀ tag op k s, J s → P ⟨tag, call op k⟩ s →
      J (act op s).2 ∧ R s (act op s).2 ∧ P ⟨tag, k (act op s).1⟩ (act op s).2 ∧
        ∀ y ∈ spawn op, P y (act op s).2) :
    Transition.Preserved (Step act spawn) fun c => J c.shared ∧ ∀ x ∈ c.processes, P x c.shared := by
  intro c c' hc hstep
  obtain ⟨before, tag, op, k, after, hp, rfl⟩ := hstep.split
  have hmem : ∀ x, x ∈ before ∨ x ∈ after → x ∈ c.processes := by
    intro x hx
    rw [hp, List.mem_append, List.mem_cons]
    exact hx.imp_right .inr
  obtain ⟨hJ, hR, hself, hnew⟩ := hcall tag op k c.shared hc.1 (hc.2 _ (by rw [hp]; simp))
  refine ⟨hJ, fun x hx => ?_⟩
  rcases mem_after_step.mp hx with hx | rfl | hx
  · exact hstable x _ _ hR (hc.2 x (hmem x hx))
  · exact hself
  · exact hnew x hx

/-- The same where every process has a tag of its own, so that a call may disturb what holds of a
process with the tag of its caller. `Known` are the tags that have been given. -/
theorem keepsEach_step {J : σ → Prop} {P : Process τ Op Reply ε α → σ → Prop} {R : τ → σ → σ → Prop}
    {Known : τ → σ → Prop} (hknown : ∀ x s, P x s → Known x.tag s)
    (hstable : ∀ x tag s s', x.tag ≠ tag → R tag s s' → P x s → P x s')
    (hcall : ∀ tag op k s, J s → P ⟨tag, call op k⟩ s →
      J (act op s).2 ∧ R tag s (act op s).2 ∧ P ⟨tag, k (act op s).1⟩ (act op s).2 ∧
        ((spawn op).map Process.tag).Nodup ∧
        ∀ y ∈ spawn op, ¬ Known y.tag s ∧ P y (act op s).2) :
    Transition.Preserved (Step act spawn) fun c => J c.shared ∧ (c.processes.map Process.tag).Nodup ∧
      ∀ x ∈ c.processes, P x c.shared := by
  intro c c' hc hstep
  obtain ⟨hJc, hnodup, hP⟩ := hc
  obtain ⟨before, tag, op, k, after, hp, rfl⟩ := hstep.split
  have hcaller : P ⟨tag, call op k⟩ c.shared := hP _ (by rw [hp]; simp)
  obtain ⟨hJ, hR, hself, hspawn, hnew⟩ := hcall tag op k c.shared hJc hcaller
  have htags : c.processes.map Process.tag = before.map Process.tag ++ tag :: after.map Process.tag := by
    rw [hp, List.map_append, List.map_cons]
  -- the others have other tags
  have hother : ∀ x, x ∈ before ∨ x ∈ after → P x c.shared ∧ x.tag ≠ tag := by
    intro x hx
    have hmem : x ∈ c.processes := by
      rw [hp, List.mem_append, List.mem_cons]
      exact hx.imp_right .inr
    refine ⟨hP x hmem, fun he => ?_⟩
    have htag := (List.nodup_cons.mp (List.nodup_middle.mp (htags ▸ hnodup))).1
    rw [List.mem_append] at htag
    exact htag (hx.imp (fun hx => he ▸ List.mem_map_of_mem hx) fun hx => he ▸ List.mem_map_of_mem hx)
  refine ⟨hJ, ?_, fun x hx => ?_⟩
  · show ((before ++ ⟨tag, k (act op c.shared).1⟩ :: after ++ spawn op).map Process.tag).Nodup
    rw [List.map_append, List.map_append, List.map_cons, ← htags]
    refine List.nodup_append.mpr ⟨hnodup, hspawn, fun t ht t' ht' he => ?_⟩
    obtain ⟨y, hy, rfl⟩ := List.mem_map.mp ht'
    obtain ⟨x, hx, rfl⟩ := List.mem_map.mp ht
    exact (hnew y hy).1 (he ▸ hknown x _ (hP x hx))
  · rcases mem_after_step.mp hx with hx | rfl | hx
    · exact hstable x _ _ _ (hother x hx).2 hR (hother x hx).1
    · exact hself
    · exact (hnew x hx).2

/-- The weights of all processes together. -/
def total (w : Process τ Op Reply ε α → Int) (c : Pool τ Op Reply ε σ α) : Int :=
  (c.processes.map w).sum

/-- A step changes the total as much as it changes the weight of the process that calls and of
those it starts. -/
theorem total_step (w : Process τ Op Reply ε α → Int) (h : Step act spawn c c') :
    ∃ tag op k, ⟨tag, call op k⟩ ∈ c.processes ∧
      c'.total w = c.total w - w ⟨tag, call op k⟩ + w ⟨tag, k (act op c.shared).1⟩ +
        ((spawn op).map w).sum := by
  obtain ⟨before, tag, op, k, after, hp, rfl⟩ := h.split
  refine ⟨tag, op, k, by rw [hp]; simp, ?_⟩
  simp only [total, hp, List.map_append, List.map_cons, List.sum_append, List.sum_cons]
  omega

theorem Step.tags (h : Step act spawn c c') :
    ∃ op, c'.processes.map Process.tag = c.processes.map Process.tag ++ (spawn op).map Process.tag := by
  obtain ⟨before, tag, op, k, after, hp, rfl⟩ := h.split
  exact ⟨op, by simp [hp]⟩

/-! ### Every run ends -/

/-- All calls of the process start processes of a lower level only. -/
def Below (spawn : Op → List (Process τ Op Reply ε α)) (level : τ → Nat)
    (x : Process τ Op Reply ε α) : Prop :=
  x.program.Calls fun op => ∀ y ∈ spawn op, level y.tag < level x.tag

/-- Of a lower level, or the same process later. -/
def Smaller (level : τ → Nat) : Process τ Op Reply ε α → Process τ Op Reply ε α → Prop :=
  InvImage (Prod.Lex (· < ·) Next) fun x => (level x.tag, x.program)

theorem wellFounded_smaller (level : τ → Nat) :
    WellFounded (Smaller level : Process τ Op Reply ε α → Process τ Op Reply ε α → Prop) :=
  InvImage.wf _ (wellFounded_lt.prod_lex wellFounded_next)

/-- A step replaces a process by smaller ones. -/
theorem Step.cutExpand {level : τ → Nat} (hc : ∀ x ∈ c.processes, Below spawn level x)
    (h : Step act spawn c c') :
    Relation.CutExpand (Smaller level) (c'.processes : Multiset (Process τ Op Reply ε α))
      c.processes := by
  obtain ⟨before, tag, op, k, after, hp, rfl⟩ := h.split
  have hbelow := (hc ⟨tag, call op k⟩ (by rw [hp]; simp)).1
  refine ⟨↑(⟨tag, k (act op c.shared).1⟩ :: spawn op), ⟨tag, call op k⟩, fun y hy => ?_, ?_⟩
  · rcases List.mem_cons.mp (Multiset.mem_coe.mp hy) with rfl | hy
    · exact .right _ (.reply op k _)
    · exact .left _ _ (hbelow y hy)
  · classical
    rw [hp, ← Multiset.coe_singleton, Multiset.coe_add, Multiset.coe_add, Multiset.coe_eq_coe,
      List.perm_iff_count]
    intro x
    simp only [List.count_append, List.count_cons, List.count_nil]
    omega

/-- Whatever the order of the calls, there are finitely many. -/
theorem acc_of_below (level : τ → Nat) (hspawn : ∀ op, ∀ y ∈ spawn op, Below spawn level y)
    (hc : ∀ x ∈ c.processes, Below spawn level x) : Acc (fun b a => Step act spawn a b) c := by
  have hwf : IsWellFounded (Process τ Op Reply ε α) (Smaller level) := ⟨wellFounded_smaller level⟩
  have hacc : Acc (Relation.CutExpand (Smaller level))
      (c.processes : Multiset (Process τ Op Reply ε α)) :=
    Relation.acc_of_singleton fun x _ => (hwf.wf.apply x).cutExpand
  generalize hm : (c.processes : Multiset (Process τ Op Reply ε α)) = m at hacc
  induction hacc generalizing c with
  | intro m _ ih =>
    subst hm
    refine ⟨c, fun c' hstep => ih _ (hstep.cutExpand hc) ?_ rfl⟩
    have hall : Transition.Preserved (Step act spawn) fun c : Pool τ Op Reply ε σ α =>
        True ∧ ∀ x ∈ c.processes, Below spawn level x :=
      keepsAll_step (J := fun _ => True) (P := fun x _ => Below spawn level x) (R := fun _ _ => True)
        (fun _ _ _ _ h => h)
        fun tag op k s _ h => ⟨True.intro, True.intro, h.2 _ True.intro, hspawn op⟩
    exact (hall c c' ⟨True.intro, hc⟩ hstep).2

end Pool
end CascadePlayground
