import CascadePlayground.Affinity.Results
import Mathlib.Algebra.Ring.Int.Defs

/-! What is plotted.

`get_values` groups what the results file holds by one parameter, the one on the
axis. A bar is looked up under the configuration that the loops met last, with the
parameter replaced, and the groups of other configurations are passed over without a
word. When the runs agree in their other parameters there are no others, and all that
was measured is plotted.

With runs that agree, every bar is the mean of the samples of its logic and its
value, over all runs in the order of the file (`plotted`). -/
namespace CascadePlayground.Affinity
open Text

namespace ExpConfig

/-- `conf[index]` -/
def get (e : ExpConfig) : Fin 8 → Int
  | 0 => e.objectSize
  | 1 => e.objectRate
  | 2 => e.entryPartSize
  | 3 => e.numEntryParts
  | 4 => e.dataPartSize
  | 5 => e.numDataParts
  | 6 => e.numShards
  | 7 => e.numCategories

/-- `conf[index] = v` -/
def set (e : ExpConfig) (index : Fin 8) (v : Int) : ExpConfig :=
  match index with
  | 0 => {e with objectSize := v}
  | 1 => {e with objectRate := v}
  | 2 => {e with entryPartSize := v}
  | 3 => {e with numEntryParts := v}
  | 4 => {e with dataPartSize := v}
  | 5 => {e with numDataParts := v}
  | 6 => {e with numShards := v}
  | 7 => {e with numCategories := v}

theorem set_get (e : ExpConfig) (index : Fin 8) : e.set index (e.get index) = e :=
  match index with
  | 0 | 1 | 2 | 3 | 4 | 5 | 6 | 7 => rfl

theorem get_set (e : ExpConfig) (index : Fin 8) (v : Int) : (e.set index v).get index = v :=
  match index with
  | 0 | 1 | 2 | 3 | 4 | 5 | 6 | 7 => rfl

end ExpConfig

/-! ### `get_values` -/

/-- `sorted(list(data.keys()))` -/
def logics (data : Data) : List Int := (data.entries.map Prod.fst).mergeSort (· ≤ ·)

/-- `for conf in data[l]` -/
def configs (data : Data) (l : Int) : List ExpConfig :=
  ((data.get? l).getD .empty).entries.map Prod.fst

/-- The variables of the first loops: `values` and `exp_config`. -/
structure Collected where
  values : List Int := []
  expConfig : Option ExpConfig := none

def Collected.add (index : Fin 8) (maxValue : Int) (c : Collected) (conf : ExpConfig) : Collected where
  values :=
    let v := conf.get index
    if v ∉ c.values ∧ v ≤ maxValue then c.values ++ [v] else c.values
  expConfig := some conf

def collect (data : Data) (index : Fin 8) (maxValue : Int) : Collected :=
  (logics data).foldl (fun c l => (configs data l).foldl (Collected.add index maxValue) c) {}

section
variable {α : Type} [Zero α]

/-- A bar of `avg` or `std`. There is a configuration where there is a value. -/
def bar (stat : List Int → α) (data : Data) (expConfig : Option ExpConfig) (index : Fin 8) (l v : Int) :
    α :=
  match expConfig.bind fun e => group data l (e.set index v) with
  | some g => stat g.latencies
  | none => 0

/-- The lists of a logic are filled value by value. -/
def bars (stat : List Int → α) (data : Data) (expConfig : Option ExpConfig) (index : Fin 8)
    (values : List Int) : Dict Int (List α) :=
  (logics data).foldl
    (fun d l => d.update l fun _ => values.map fun v => bar stat data expConfig index l v) .empty

structure Values (α : Type) where
  values : List Int
  avg : Dict Int (List α)
  std : Dict Int (List α)

/-- `mean` and `std` are those of numpy. -/
def getValues (mean std : List Int → α) (data : Data) (index : Fin 8) (maxValue : Int) : Values α :=
  let c := collect data index maxValue
  let values := c.values.mergeSort (· ≤ ·)
  ⟨values, bars mean data c.expConfig index values, bars std data c.expConfig index values⟩

end

/-! ### The values -/

variable {data : Data} {kept : Int → ExpConfig → List Sample}

theorem groupOf_ne_none (samples : List Sample) : groupOf samples ≠ none ↔ samples ≠ [] := by
  unfold groupOf
  split <;> simp_all

theorem Describes.mem_configs (h : Describes data kept) (l : Int) (e : ExpConfig) :
    e ∈ configs data l ↔ kept l e ≠ [] := by
  have hgroup := h.groups l e
  rw [configs, Dict.mem_keys_iff, ← groupOf_ne_none, ← hgroup, group]
  cases data.get? l with
  | none => exact Iff.rfl
  | some d => exact Iff.rfl

theorem Describes.mem_logics (h : Describes data kept) (l : Int) :
    l ∈ logics data ↔ ∃ e, kept l e ≠ [] := by
  rw [logics, List.mem_mergeSort, Dict.mem_keys_iff]
  constructor
  · intro hl
    obtain ⟨d, hd⟩ := Option.ne_none_iff_exists'.mp hl
    obtain ⟨e, he⟩ := h.entries l d hd
    refine ⟨e, (h.mem_configs l e).mp ?_⟩
    rw [configs, hd]
    exact (Dict.mem_keys_iff d e).mpr he
  · rintro ⟨e, he⟩ hnone
    have hgroup := h.groups l e
    rw [group, hnone] at hgroup
    exact (groupOf_ne_none _).mpr he hgroup.symm

/-- What the loops have after some configurations. -/
structure Collected.After (index : Fin 8) (maxValue : Int) (confs : List ExpConfig) (c : Collected) : Prop where
  nodup : c.values.Nodup
  mem : ∀ v, v ∈ c.values ↔ v ≤ maxValue ∧ ∃ e ∈ confs, e.get index = v
  last : c.expConfig = confs.getLast?

theorem Collected.After.add {index : Fin 8} {maxValue : Int} {confs : List ExpConfig} {c : Collected}
    (h : c.After index maxValue confs) (e : ExpConfig) :
    (c.add index maxValue e).After index maxValue (confs ++ [e]) := by
  have hvalues : (c.add index maxValue e).values =
      if e.get index ∉ c.values ∧ e.get index ≤ maxValue then c.values ++ [e.get index]
      else c.values := rfl
  refine ⟨?_, fun v => ?_, List.getLast?_concat.symm⟩
  · rw [hvalues]
    split
    · next hnew =>
      rw [← List.concat_eq_append]
      exact h.nodup.concat hnew.1
    · exact h.nodup
  · have hconfs : (∃ e' ∈ confs ++ [e], e'.get index = v) ↔
        (∃ e' ∈ confs, e'.get index = v) ∨ e.get index = v := by
      simp only [List.mem_append, List.mem_singleton, or_and_right, exists_or, exists_eq_left]
    have hvalue : v ∈ (c.add index maxValue e).values ↔
        v ∈ c.values ∨ v ≤ maxValue ∧ e.get index = v := by
      rw [hvalues]
      split
      · next hnew =>
        rw [List.mem_append, List.mem_singleton]
        constructor
        · rintro (hv | rfl)
          · exact .inl hv
          · exact .inr ⟨hnew.2, rfl⟩
        · rintro (hv | ⟨_, rfl⟩)
          · exact .inl hv
          · exact .inr rfl
      · next hold =>
        constructor
        · exact .inl
        · rintro (hv | ⟨hle, rfl⟩)
          · exact hv
          · exact not_not.mp fun hnot => hold ⟨hnot, hle⟩
    rw [hvalue, h.mem, hconfs, ← and_or_left]

theorem Collected.After.foldl {index : Fin 8} {maxValue : Int} (l : List ExpConfig)
    {confs : List ExpConfig} {c : Collected} (h : c.After index maxValue confs) :
    (l.foldl (Collected.add index maxValue) c).After index maxValue (confs ++ l) := by
  induction l generalizing confs c with
  | nil =>
    rw [List.append_nil]
    exact h
  | cons e l ih =>
    rw [List.foldl_cons, List.append_cons]
    exact ih (h.add e)

/-- Every configuration that the loops meet, in their order. -/
def confs (data : Data) : List ExpConfig := (logics data).flatMap (configs data)

theorem collect_after (data : Data) (index : Fin 8) (maxValue : Int) :
    (collect data index maxValue).After index maxValue (confs data) := by
  have hstart : ({} : Collected).After index maxValue [] :=
    ⟨List.nodup_nil, fun v => by simp, rfl⟩
  have hfold := hstart.foldl (confs data)
  rw [List.nil_append, confs, List.foldl_flatMap] at hfold
  exact hfold

theorem Describes.mem_confs (h : Describes data kept) (e : ExpConfig) :
    e ∈ confs data ↔ ∃ l, kept l e ≠ [] := by
  rw [confs, List.mem_flatMap]
  constructor
  · rintro ⟨l, _, he⟩
    exact ⟨l, (h.mem_configs l e).mp he⟩
  · rintro ⟨l, he⟩
    exact ⟨l, (h.mem_logics l).mpr ⟨e, he⟩, (h.mem_configs l e).mpr he⟩

/-! ### The bars -/

section
variable {α : Type} [Zero α]

/-- What is plotted for some samples. -/
def statOf (stat : List Int → α) (samples : List Sample) : α :=
  if samples = [] then 0 else stat (samples.map Sample.latency)

theorem Describes.bar (h : Describes data kept) (stat : List Int → α) (e : ExpConfig) (index : Fin 8)
    (l v : Int) : Affinity.bar stat data (some e) index l v = statOf stat (kept l (e.set index v)) := by
  rw [Affinity.bar, Option.bind_some, h.groups, groupOf, statOf]
  by_cases hnone : kept l (e.set index v) = []
  · rw [if_pos hnone, if_pos hnone]
  · rw [if_neg hnone, if_neg hnone]

theorem get?_foldl_update {β : Type} (f : Int → β) (ls : List Int) (d : Dict Int β) (l : Int) :
    (ls.foldl (fun d l => d.update l fun _ => f l) d).get? l = if l ∈ ls then some (f l) else d.get? l := by
  induction ls generalizing d with
  | nil => rfl
  | cons l' ls ih =>
    rw [List.foldl_cons, ih, Dict.get?_update]
    by_cases hls : l ∈ ls
    · simp [hls]
    · by_cases hl : l = l' <;> simp [hls, hl]

theorem bars_get? (stat : List Int → α) (data : Data) (expConfig : Option ExpConfig) (index : Fin 8)
    (values : List Int) (l : Int) :
    (bars stat data expConfig index values).get? l =
      if l ∈ logics data then some (values.map fun v => Affinity.bar stat data expConfig index l v)
      else none :=
  get?_foldl_update _ _ _ _

theorem getValues_sorted (mean std : List Int → α) (data : Data) (index : Fin 8) (maxValue : Int) :
    (getValues mean std data index maxValue).values.Pairwise (· < ·) := by
  have hnodup := (collect_after data index maxValue).nodup
  have hsorted : ((collect data index maxValue).values.mergeSort fun a b => decide (a ≤ b)).Pairwise
      fun a b => decide (a ≤ b) = true := by
    apply List.pairwise_mergeSort
    · intro a b c hab hbc
      exact decide_eq_true (Int.le_trans (of_decide_eq_true hab) (of_decide_eq_true hbc))
    · intro a b
      rw [Bool.or_eq_true, decide_eq_true_eq, decide_eq_true_eq]
      exact Int.le_total a b
  have hdistinct := (List.mergeSort_perm (collect data index maxValue).values
    fun a b => decide (a ≤ b)).nodup_iff.mpr hnodup
  exact (hsorted.and hdistinct).imp fun {a b} h =>
    Int.lt_iff_le_and_ne.mpr ⟨of_decide_eq_true h.1, h.2⟩

theorem Describes.mem_values (h : Describes data kept) (mean std : List Int → α) (index : Fin 8)
    (maxValue v : Int) : v ∈ (getValues mean std data index maxValue).values ↔
      v ≤ maxValue ∧ ∃ l e, kept l e ≠ [] ∧ e.get index = v := by
  show v ∈ (collect data index maxValue).values.mergeSort _ ↔ _
  rw [List.mem_mergeSort, (collect_after data index maxValue).mem]
  simp only [h.mem_confs]
  constructor
  · rintro ⟨hv, e, ⟨l, hl⟩, he⟩
    exact ⟨hv, l, e, hl, he⟩
  · rintro ⟨hv, l, e, hl, he⟩
    exact ⟨hv, e, ⟨l, hl⟩, he⟩

/-- The bars of a logic are those of the last configuration, with each value in turn. -/
theorem Describes.bars_last (h : Describes data kept) (stat : List Int → α) (index : Fin 8)
    (maxValue : Int) (values : List Int) (l : Int) :
    (bars stat data (collect data index maxValue).expConfig index values).get? l = none ∧
        (∀ e, kept l e = []) ∨
      ∃ e l', kept l' e ≠ [] ∧ (∃ e', kept l e' ≠ []) ∧
        (bars stat data (collect data index maxValue).expConfig index values).get? l =
          some (values.map fun v => statOf stat (kept l (e.set index v))) := by
  rw [bars_get?, (collect_after data index maxValue).last]
  by_cases hl : l ∈ logics data
  · obtain ⟨e', he'⟩ := (h.mem_logics l).mp hl
    obtain ⟨e, he⟩ := List.getLast?_isSome.mpr (List.ne_nil_of_mem ((h.mem_confs e').mpr ⟨l, he'⟩))
      |> Option.isSome_iff_exists.mp
    obtain ⟨l', hl'⟩ := (h.mem_confs e).mp (List.mem_of_getLast? he)
    refine .inr ⟨e, l', hl', ⟨e', he'⟩, ?_⟩
    simp only [if_pos hl, he, h.bar]
  · refine .inl ⟨if_neg hl, fun e => ?_⟩
    exact not_not.mp fun he => hl ((h.mem_logics l).mpr ⟨e, he⟩)

/-! ### Runs that agree -/

/-- In the order of the file: the samples of the runs with this logic and this
value of the parameter that the script is after. -/
def plottedSamples (runs : List Run) (index : Fin 8) (l v : Int) : List Sample :=
  (runs.filter fun r => decide (l = r.affinityLogic ∧ r.expConfig.get index = v)).flatMap fun r =>
    keptOf r.samples.zipIdx

/-- The runs differ in this parameter and in their logic at most. -/
def Agree (runs : List Run) (index : Fin 8) : Prop :=
  ∀ r ∈ runs, ∀ r' ∈ runs, r'.expConfig = r.expConfig.set index (r'.expConfig.get index)

theorem keptSamples_set {runs : List Run} {index : Fin 8} (h : Agree runs index) {r : Run}
    (hr : r ∈ runs) (l v : Int) :
    keptSamples runs l (r.expConfig.set index v) = plottedSamples runs index l v := by
  unfold keptSamples plottedSamples
  congr 1
  apply List.filter_congr
  intro r' hr'
  rw [decide_eq_decide]
  refine and_congr_right fun _ => ⟨fun he => ?_, fun hv => ?_⟩
  · rw [← he, ExpConfig.get_set]
  · rw [h r hr r' hr', hv]

theorem exists_run {runs : List Run} {l : Int} {e : ExpConfig} (h : keptSamples runs l e ≠ []) :
    ∃ r ∈ runs, r.expConfig = e := by
  obtain ⟨s, hs⟩ := List.exists_mem_of_ne_nil _ h
  obtain ⟨r, hr, _⟩ := List.mem_flatMap.mp hs
  have hr := List.mem_filter.mp hr
  exact ⟨r, hr.1, (of_decide_eq_true hr.2).2.symm⟩

/-- The bars of a logic, for runs that agree. -/
theorem bars_plotted {runs : List Run} {index : Fin 8} (h : Agree runs index)
    (hdata : Describes data (keptSamples runs)) (stat : List Int → α) (maxValue : Int)
    (values : List Int) (l : Int) :
    ((bars stat data (collect data index maxValue).expConfig index values).get? l = none ↔
        ∀ v, plottedSamples runs index l v = []) ∧
      ∀ bs, (bars stat data (collect data index maxValue).expConfig index values).get? l = some bs →
        bs = values.map fun v => statOf stat (plottedSamples runs index l v) := by
  rcases hdata.bars_last stat index maxValue values l with ⟨hbars, hnone⟩ | ⟨e, l', he, ⟨e', he'⟩, hbars⟩
  · refine ⟨⟨fun _ v => ?_, fun _ => hbars⟩, fun bs hbs => by rw [hbars] at hbs; cases hbs⟩
    by_contra hne
    obtain ⟨s, hs⟩ := List.exists_mem_of_ne_nil _ hne
    obtain ⟨r, hr, _⟩ := List.mem_flatMap.mp hs
    rw [← keptSamples_set h (List.mem_filter.mp hr).1, hnone] at hne
    exact hne rfl
  · obtain ⟨r, hr, rfl⟩ := exists_run he
    refine ⟨⟨fun hnil => ?_, fun hnil => ?_⟩, fun bs hbs => ?_⟩
    · rw [hbars] at hnil
      cases hnil
    · obtain ⟨r', hr', rfl⟩ := exists_run he'
      rw [h r hr r' hr', keptSamples_set h hr, hnil] at he'
      exact absurd rfl he'
    · rw [hbars] at hbs
      rw [← Option.some.inj hbs]
      apply List.map_congr_left
      intro v _
      rw [keptSamples_set h hr]

/-- **What is plotted of runs that agree** in all but one parameter and the logic: the
values of this parameter up to the largest one asked for, in order and once each, and
for each logic and value the statistics of the latencies measured with them. -/
theorem plotted (runs : List Run) (index : Fin 8) (h : Agree runs index) (mean std : List Int → α)
    (maxValue : Int) :
    ∃ data, extractRawData (runs.flatMap measurements) = .ok data ∧
      (getValues mean std data index maxValue).values.Pairwise (· < ·) ∧
      (∀ v, v ∈ (getValues mean std data index maxValue).values ↔
        v ≤ maxValue ∧ ∃ l, plottedSamples runs index l v ≠ []) ∧
      ∀ l,
        ((getValues mean std data index maxValue).avg.get? l = none ↔
          ∀ v, plottedSamples runs index l v = []) ∧
        (∀ bs, (getValues mean std data index maxValue).avg.get? l = some bs →
          bs = (getValues mean std data index maxValue).values.map fun v =>
            statOf mean (plottedSamples runs index l v)) ∧
        ((getValues mean std data index maxValue).std.get? l = none ↔
          ∀ v, plottedSamples runs index l v = []) ∧
        ∀ bs, (getValues mean std data index maxValue).std.get? l = some bs →
          bs = (getValues mean std data index maxValue).values.map fun v =>
            statOf std (plottedSamples runs index l v) := by
  obtain ⟨data, hread, hdata⟩ := describes_measurements runs
  refine ⟨data, hread, getValues_sorted mean std data index maxValue, fun v => ?_, fun l => ?_⟩
  · rw [hdata.mem_values]
    refine and_congr_right fun _ => ⟨fun hv => ?_, fun hv => ?_⟩
    · obtain ⟨l, e, hne, rfl⟩ := hv
      obtain ⟨r, hr, rfl⟩ := exists_run hne
      refine ⟨l, ?_⟩
      rw [← keptSamples_set h hr, ExpConfig.set_get]
      exact hne
    · obtain ⟨l, hne⟩ := hv
      obtain ⟨s, hs⟩ := List.exists_mem_of_ne_nil _ hne
      obtain ⟨r, hr, _⟩ := List.mem_flatMap.mp hs
      rw [← keptSamples_set h (List.mem_filter.mp hr).1] at hne
      exact ⟨l, _, hne, ExpConfig.get_set ..⟩
  · have havg := bars_plotted h hdata mean maxValue (getValues mean std data index maxValue).values l
    have hstd := bars_plotted h hdata std maxValue (getValues mean std data index maxValue).values l
    exact ⟨havg.1, havg.2, hstd⟩

/-! Two runs that differ in the rate: 100 objects are measured of the first and 200 of
the second, all with the same latency. -/

def slowRun : Run where
  clientId := 0
  objectSize := 1000
  objectRate := 10
  entryPartSize := 100
  numEntryParts := 1
  dataPartSize := 100
  numDataParts := 1
  affinityLogic := 1
  numShards := 2
  numCategories := 4
  benchmarkTime := 600
  runMode := []
  samples := List.replicate 600 ⟨40, 7, 2, 1⟩
  samples_ne_nil := List.cons_ne_nil _ _
  runMode_line := by simp

def fastRun : Run := {slowRun with
  objectRate := 20
  benchmarkTime := 700
  samples := List.replicate 700 ⟨50, 7, 3, 1⟩
  samples_ne_nil := List.cons_ne_nil _ _ }

theorem agree_rates : Agree [slowRun, fastRun] 1 := by
  intro r hr r' hr'
  simp only [List.mem_cons, List.not_mem_nil, or_false] at hr hr'
  rcases hr with rfl | rfl <;> rcases hr' with rfl | rfl <;> rfl

/-- Where all latencies are the same, the mean is the first one. -/
def firstOf (latencies : List Int) : Int := latencies.headD 0

theorem plotted_rates :
    ∃ data, extractRawData ([slowRun, fastRun].flatMap measurements) = .ok data ∧
      (getValues firstOf (fun _ => 0) data 1 99999999).values.Pairwise (· < ·) ∧
      (∀ v, v ∈ (getValues firstOf (fun _ => 0) data 1 99999999).values ↔
        v ≤ 99999999 ∧ ∃ l, plottedSamples [slowRun, fastRun] 1 l v ≠ []) ∧
      ∀ l,
        ((getValues firstOf (fun _ => 0) data 1 99999999).avg.get? l = none ↔
          ∀ v, plottedSamples [slowRun, fastRun] 1 l v = []) ∧
        (∀ bs, (getValues firstOf (fun _ => 0) data 1 99999999).avg.get? l = some bs →
          bs = (getValues firstOf (fun _ => 0) data 1 99999999).values.map fun v =>
            statOf firstOf (plottedSamples [slowRun, fastRun] 1 l v)) ∧
        ((getValues firstOf (fun _ => 0) data 1 99999999).std.get? l = none ↔
          ∀ v, plottedSamples [slowRun, fastRun] 1 l v = []) ∧
        ∀ bs, (getValues firstOf (fun _ => 0) data 1 99999999).std.get? l = some bs →
          bs = (getValues firstOf (fun _ => 0) data 1 99999999).values.map fun v =>
            statOf (fun _ => 0) (plottedSamples [slowRun, fastRun] 1 l v) :=
  plotted [slowRun, fastRun] 1 agree_rates firstOf (fun _ => 0) 99999999

end

end CascadePlayground.Affinity
