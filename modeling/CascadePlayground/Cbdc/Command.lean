import CascadePlayground.Cbdc.Workload
import CascadePlayground.CommandLine
import Mathlib.Data.List.Induction

/-! The command line of `generate_workload`.

The loop over `getopt` stores what it finds as it goes. In the end every variable
has the argument that was given last for its letter, however the options are
spelled on the command line (`parse_eq_some_iff`).

Without `-o` the file is named after the parameters. Workloads with different
parameters get different names (`defaultName_injective`). -/
namespace CascadePlayground.Cbdc
open Text CommandLine

/-- The variables of `main` that the options are stored in. -/
structure Arguments extends Parameters where
  fname : Word := []
deriving DecidableEq

def optstring : List Char := "w:c:t:s:r:i:v:g:o:h".toList

/-- The body of the loop; `none` where it prints the help and returns. -/
def Arguments.store (a : Arguments) : Found → Option Arguments
  | .option 'w' (some optarg) => some {a with numWallets := strtoul optarg}
  | .option 'c' (some optarg) => some {a with coinsPerWallet := strtoul optarg}
  | .option 't' (some optarg) => some {a with transfersPerWallet := strtoul optarg}
  | .option 's' (some optarg) => some {a with sendersPerTransfer := strtoul optarg}
  | .option 'r' (some optarg) => some {a with receiversPerTransfer := strtoul optarg}
  | .option 'i' (some optarg) => some {a with coinInitialValue := (strtoul optarg).toUInt32}
  | .option 'v' (some optarg) => some {a with transferValue := (strtoul optarg).toUInt32}
  | .option 'g' (some optarg) => some {a with randomSeed := strtoul optarg}
  | .option 'o' (some optarg) => some {a with fname := optarg}
  | _ => none

/-- `while ((c = getopt(argc, argv, …)) != -1)` -/
def parse (args : List Word) : Option Arguments :=
  (options (kindOf optstring) ⟨[], args⟩).foldlM Arguments.store {}

/-- Numbers joined by `_`, with the ending of the file. -/
def underscored : List Nat → Word
  | [] => ".gz".toList
  | [n] => decimal n ++ ".gz".toList
  | n :: m :: ns => decimal n ++ '_' :: underscored (m :: ns)

def Parameters.list (p : Parameters) : List Nat :=
  [p.numWallets.toNat, p.coinsPerWallet.toNat, p.transfersPerWallet.toNat, p.sendersPerTransfer.toNat,
    p.receiversPerTransfer.toNat, p.coinInitialValue.toNat, p.transferValue.toNat, p.randomSeed.toNat]

def defaultName (p : Parameters) : Word := underscored p.list

/-- `fname`, where it is written to. -/
def Arguments.output (a : Arguments) : Word :=
  if a.fname = [] then defaultName a.toParameters else a.fname

/-! ### What the options say -/

/-- The argument given last for the letter. -/
def lastArg (c : Char) (os : List (Char × Option Word)) : Option Word :=
  (os.filter fun o => o.1 = c).getLast?.bind Prod.snd

def number (c : Char) (os : List (Char × Option Word)) (default : UInt64) : UInt64 :=
  ((lastArg c os).map strtoul).getD default

/-- The variables, from the options as a whole. -/
def Arguments.ofOptions (os : List (Char × Option Word)) : Arguments where
  numWallets := number 'w' os 10
  coinsPerWallet := number 'c' os 1
  transfersPerWallet := number 't' os 1
  sendersPerTransfer := number 's' os 1
  receiversPerTransfer := number 'r' os 1
  coinInitialValue := (number 'i' os 100000).toUInt32
  transferValue := (number 'v' os 10).toUInt32
  randomSeed := number 'g' os 3
  fname := (lastArg 'o' os).getD []

theorem lastArg_concat (c d : Char) (os : List (Char × Option Word)) (v : Word) :
    lastArg c (os ++ [(d, some v)]) = if d = c then some v else lastArg c os := by
  unfold lastArg
  rw [List.filter_append]
  by_cases h : d = c
  · simp [h]
  · simp [h]

theorem number_concat (c d : Char) (os : List (Char × Option Word)) (v : Word) (default : UInt64) :
    number c (os ++ [(d, some v)]) default = if d = c then strtoul v else number c os default := by
  unfold number
  rw [lastArg_concat]
  split <;> rfl

/-- The letters with an argument. -/
def settings : List Char := ['w', 'c', 't', 's', 'r', 'i', 'v', 'g', 'o']

theorem kind_of_setting {c : Char} (h : c ∈ settings) : kindOf optstring c = some true := by
  have hall : settings.all (fun d => decide (kindOf optstring d = some true)) = true := by decide
  exact of_decide_eq_true (List.all_eq_true.mp hall c h)

theorem kind_cases (c : Char) : c ∈ settings ∨ (c = 'h' ∧ kindOf optstring c = some false) ∨
    kindOf optstring c = none := by
  by_cases h : c ∈ optstring
  · have hall : optstring.all (fun d => decide (d ∈ settings ∨
        (d = 'h' ∧ kindOf optstring d = some false) ∨ kindOf optstring d = none)) = true := by
      decide
    exact of_decide_eq_true (List.all_eq_true.mp hall c h)
  · right; right
    have hnil : optstring.dropWhile (· ≠ c) = [] := by
      rw [List.dropWhile_eq_nil_iff]
      intro d hd
      exact decide_eq_true fun hdc => h (hdc ▸ hd)
    unfold kindOf
    rw [hnil]
    split <;> rfl

theorem store_ofOptions {c : Char} (h : c ∈ settings) (os : List (Char × Option Word)) (v : Word) :
    (Arguments.ofOptions os).store (.option c (some v)) =
      some (Arguments.ofOptions (os ++ [(c, some v)])) := by
  simp only [settings, List.mem_cons, List.not_mem_nil, or_false] at h
  rcases h with rfl | rfl | rfl | rfl | rfl | rfl | rfl | rfl | rfl <;>
    simp [Arguments.store, Arguments.ofOptions, number_concat, lastArg_concat]

/-- Only settings are stored. -/
theorem setting_of_store {a a' : Arguments} {found : Found} (h : a.store found = some a') :
    ∃ c v, found = .option c (some v) ∧ c ∈ settings := by
  unfold Arguments.store at h
  split at h
  all_goals first
    | exact ⟨_, _, rfl, by decide⟩
    | cases h

/-- The fold over settings ends with what they say as a whole. -/
theorem foldlM_store {os : List (Char × Option Word)}
    (h : ∀ o ∈ os, o.1 ∈ settings ∧ o.2.isSome = true) :
    (os.map fun o => Found.option o.1 o.2).foldlM Arguments.store {} =
      some (Arguments.ofOptions os) := by
  induction os using List.reverseRecOn with
  | nil => rfl
  | append_singleton os o ih =>
    obtain ⟨c, optarg⟩ := o
    have hos := ih fun o ho => h o (List.mem_append_left _ ho)
    obtain ⟨hc, hv⟩ := h (c, optarg) (List.mem_append_right _ (List.mem_singleton_self _))
    obtain ⟨v, rfl⟩ := Option.isSome_iff_exists.mp hv
    rw [List.map_append, List.foldlM_append, hos]
    show (Arguments.ofOptions os).store (.option c (some v)) >>= pure = _
    rw [bind_pure]
    exact store_ofOptions hc os v

theorem settings_of_foldlM {l : List Found} {a a' : Arguments}
    (h : l.foldlM Arguments.store a = some a') :
    ∃ os : List (Char × Option Word), l = os.map (fun o => .option o.1 o.2) ∧
      ∀ o ∈ os, o.1 ∈ settings ∧ o.2.isSome = true := by
  induction l generalizing a with
  | nil => exact ⟨[], rfl, fun _ ho => absurd ho List.not_mem_nil⟩
  | cons found l ih =>
    rw [List.foldlM_cons] at h
    obtain ⟨b, hb, hl⟩ := Option.bind_eq_some_iff.mp h
    obtain ⟨c, v, rfl, hc⟩ := setting_of_store hb
    obtain ⟨os, rfl, hos⟩ := ih hl
    refine ⟨(c, some v) :: os, rfl, fun o ho => ?_⟩
    rcases List.mem_cons.mp ho with rfl | ho
    · exact ⟨hc, rfl⟩
    · exact hos o ho

/-- An option that is spelled is known, with an argument if it takes one. -/
theorem known_of_spells {kind : Char → Option Bool} {os : List (Char × Option Word)} {cs : List Char}
    {args : List Word} (h : Spells kind os cs args) : ∀ o ∈ os, kind o.1 = some o.2.isSome := by
  induction h with
  | nil => exact fun _ ho => absurd ho List.not_mem_nil
  | stop => exact fun _ ho => absurd ho List.not_mem_nil
  | operand _ _ ih => exact ih
  | word _ _ ih => exact ih
  | flag hc _ ih => exact List.forall_mem_cons.mpr ⟨hc, ih⟩
  | joined hc _ _ ih => exact List.forall_mem_cons.mpr ⟨hc, ih⟩
  | separate hc _ ih => exact List.forall_mem_cons.mpr ⟨hc, ih⟩

/-- **What the command line says**: the words that do not lead to the help are the
spellings of options other than `-h`, joined or separate and among operands, and each
variable has what was given last for its letter. -/
theorem parse_eq_some_iff (args : List Word) (a : Arguments) :
    parse args = some a ↔
      ∃ os, Spells (kindOf optstring) os [] args ∧ (∀ o ∈ os, o.1 ≠ 'h') ∧
        a = Arguments.ofOptions os := by
  constructor
  · intro h
    obtain ⟨os, hfound, hos⟩ := settings_of_foldlM h
    refine ⟨os, options_eq_iff.mp hfound, fun o ho hh => ?_, ?_⟩
    · have hsetting := (hos o ho).1
      rw [hh] at hsetting
      exact absurd hsetting (by decide)
    · unfold parse at h
      rw [hfound, foldlM_store hos] at h
      exact (Option.some.inj h).symm
  · rintro ⟨os, hs, hh, rfl⟩
    unfold parse
    rw [options_eq_iff.mpr hs]
    apply foldlM_store
    intro o ho
    have hknown := known_of_spells hs o ho
    rcases kind_cases o.1 with hc | ⟨hc, _⟩ | hc
    · rw [kind_of_setting hc, Option.some.injEq] at hknown
      exact ⟨hc, hknown.symm⟩
    · exact absurd hc (hh o ho)
    · rw [hc] at hknown
      cases hknown

/-! ### A command line for given parameters -/

/-- The settings of all parameters, with the numbers printed. -/
def Parameters.given (p : Parameters) : List (Char × Word) :=
  [('w', decimal p.numWallets.toNat), ('c', decimal p.coinsPerWallet.toNat),
    ('t', decimal p.transfersPerWallet.toNat), ('s', decimal p.sendersPerTransfer.toNat),
    ('r', decimal p.receiversPerTransfer.toNat), ('i', decimal p.coinInitialValue.toNat),
    ('v', decimal p.transferValue.toNat), ('g', decimal p.randomSeed.toNat)]

def commandLine (p : Parameters) : List Word := p.given.map fun x => '-' :: x.1 :: x.2

theorem spells_joined {kind : Char → Option Bool} {l : List (Char × Word)}
    (h : ∀ x ∈ l, kind x.1 = some true ∧ x.2 ≠ []) :
    Spells kind (l.map fun x => (x.1, some x.2)) [] (l.map fun x => '-' :: x.1 :: x.2) := by
  induction l with
  | nil => exact .nil
  | cons x l ih =>
    obtain ⟨hkind, hne⟩ := h x (List.mem_cons_self ..)
    have hword : x.1 :: x.2 ≠ ['-'] := fun he => hne (List.cons.inj he).2
    exact .word hword (.joined hkind hne (ih fun y hy => h y (List.mem_cons_of_mem _ hy)))

theorem strtoul_toUInt32 (v : UInt32) : (strtoul (decimal v.toNat)).toUInt32 = v := by
  have h := strtoul_decimal v.toUInt64
  rw [UInt32.toNat_toUInt64] at h
  rw [h, UInt32.toUInt32_toUInt64]

/-- Every tuple of parameters can be asked for. -/
theorem parse_commandLine (p : Parameters) : parse (commandLine p) = some {p with fname := []} := by
  have hgiven : ∀ x ∈ p.given, x.1 ∈ settings ∧ x.2 ≠ [] := by
    simp [Parameters.given, settings, decimal_ne_nil]
  have hspells : Spells (kindOf optstring) (p.given.map fun x => (x.1, some x.2)) [] (commandLine p) :=
    spells_joined fun x hx => ⟨kind_of_setting (hgiven x hx).1, (hgiven x hx).2⟩
  have hset : ∀ o ∈ p.given.map (fun x => (x.1, some x.2)), o.1 ∈ settings ∧ o.2.isSome = true := by
    intro o ho
    obtain ⟨x, hx, rfl⟩ := List.mem_map.mp ho
    exact ⟨(hgiven x hx).1, rfl⟩
  unfold parse
  rw [options_of_spells hspells, foldlM_store hset]
  simp [Arguments.ofOptions, Parameters.given, number, lastArg, strtoul_decimal, strtoul_toUInt32]

/-! ### The name of the file -/

theorem noDigit_underscore (cs : List Char) : NoDigit ('_' :: cs) := noDigit_cons (by decide)

theorem underscored_injective {ms ns : List Nat} (hlen : ms.length = ns.length)
    (h : underscored ms = underscored ns) : ms = ns := by
  induction ms using underscored.induct generalizing ns with
  | case1 => exact (List.length_eq_zero_iff.mp hlen.symm).symm
  | case2 m =>
    obtain ⟨n, rfl⟩ := List.length_eq_one_iff.mp hlen.symm
    rw [(decimal_append_inj (noDigit_cons (by decide)) (noDigit_cons (by decide)) h).1]
  | case3 m m' ms ih =>
    match ns, hlen with
    | n :: n' :: ns, hlen =>
      obtain ⟨rfl, hrest⟩ := decimal_append_inj (noDigit_underscore _) (noDigit_underscore _) h
      rw [ih (Nat.succ.inj hlen) (List.cons.inj hrest).2]

theorem defaultName_injective {p p' : Parameters} (h : defaultName p = defaultName p') : p = p' := by
  have hlist : p.list = p'.list := underscored_injective rfl h
  simp only [Parameters.list, List.cons.injEq, UInt64.toNat_inj, UInt32.toNat_inj, and_true] at hlist
  obtain ⟨h1, h2, h3, h4, h5, h6, h7, h8⟩ := hlist
  cases p
  cases p'
  simp only at h1 h2 h3 h4 h5 h6 h7 h8
  rw [h1, h2, h3, h4, h5, h6, h7, h8]

end CascadePlayground.Cbdc
