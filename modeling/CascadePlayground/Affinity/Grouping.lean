import CascadePlayground.Affinity.Keys
import CascadePlayground.Text.Strings

/-! Affinity sets.

`affinity_logic` gives a key the name of the set that it is kept with. The entry
pool is one set (logic 1) or has no sets (logic 2), and the pools of a category
are one set, named by the category as it stands in the key. Of the pipeline's keys,
those that come out together are the keys of the entry pool, with logic 1, and the
keys of one category; nothing else does (`affinity_groups`).

The sizes of the macros count the character at the end of a C string, and with it
the separator that follows the macro in a key. -/
namespace CascadePlayground.Affinity
open Text

def entryAffinityKey : List Char := "entry".toList

/-- `sizeof` of a string literal. -/
def sizeof (literal : List Char) : Nat := literal.length + 1

/-- The test for a pool. -/
def isIn (key pool : List Char) : Bool :=
  decide (find key pool = some 0) && decide (sizeof pool < key.length)

/-- What is between the pool and the next separator, or the key as it was. -/
def categoryIn (key2 pool affinityKey : List Char) : Except Exception (List Char) := do
  let key3 ← substr key2 (sizeof pool) none
  match find key3 objPathSep with
  | some pos => substr key3 0 (some pos)
  | none => pure affinityKey

def categoryOf (key2 affinityKey : List Char) : Except Exception (List Char) :=
  if isIn key2 objNewCategoryKey then categoryIn key2 objNewCategoryKey affinityKey
  else if isIn key2 objOutputCategoryKey then categoryIn key2 objOutputCategoryKey affinityKey
  else if isIn key2 objDataCategoryKey then categoryIn key2 objDataCategoryKey affinityKey
  else pure affinityKey

/-- The part of `affinity_logic` that comes after the entry pool. -/
def affinityCategory (key : List Char) : Except Exception (List Char) := do
  if isIn key objCategoryPath then
    let key2 ← substr key (sizeof objCategoryPath - 1) none
    let affinityKey ← categoryOf key2 key
    pure (if affinityKey = [] then key else affinityKey)
  else pure key

/-- `affinity_logic`, with `AFFINITY_LOGIC` 1. -/
def affinityLogic1 (key : List Char) : Except Exception (List Char) :=
  if find key objEntryPath = some 0 then pure entryAffinityKey else affinityCategory key

/-- `affinity_logic`, with `AFFINITY_LOGIC` 2. -/
def affinityLogic2 (key : List Char) : Except Exception (List Char) :=
  if find key objEntryPath = some 0 then pure key else affinityCategory key

/-! ### The three pools of a category -/

theorem isIn_iff {key pool : List Char} : isIn key pool = true ↔ pool <+: key ∧ sizeof pool < key.length := by
  rw [isIn, Bool.and_eq_true, decide_eq_true_iff, decide_eq_true_iff, find_eq_zero]

theorem categoryIn_path {category : List Char} (h : '/' ∉ category) (pool : List Char) (sep : Char)
    (rest affinityKey : List Char) :
    categoryIn (pool ++ sep :: (category ++ '/' :: rest)) pool affinityKey = .ok category := by
  have hkey3 : substr (pool ++ sep :: (category ++ '/' :: rest)) (sizeof pool) none =
      .ok (category ++ '/' :: rest) := substr_next pool sep _
  have hpos : find (category ++ '/' :: rest) objPathSep = some category.length := find_sep h rest
  show (substr (pool ++ sep :: (category ++ '/' :: rest)) (sizeof pool) none >>= fun key3 => _) = _
  rw [hkey3]
  show (match find (category ++ '/' :: rest) objPathSep with
    | some pos => substr (category ++ '/' :: rest) 0 (some pos)
    | none => pure affinityKey) = _
  rw [hpos]
  exact substr_before category _

theorem categoryIn_of_notMem {key3 : List Char} (h : '/' ∉ key3) (pool : List Char) (sep : Char)
    (affinityKey : List Char) : categoryIn (pool ++ sep :: key3) pool affinityKey = .ok affinityKey := by
  have hkey3 : substr (pool ++ sep :: key3) (sizeof pool) none = .ok key3 := substr_next pool sep _
  have hpos : find key3 objPathSep = none := find_none h
  show (substr (pool ++ sep :: key3) (sizeof pool) none >>= fun key3 => _) = _
  rw [hkey3]
  show (match find key3 objPathSep with
    | some pos => substr key3 0 (some pos)
    | none => pure affinityKey) = _
  rw [hpos]
  rfl

theorem isIn_path (pool : List Char) (sep : Char) {name : List Char} (h : name ≠ []) :
    isIn (pool ++ sep :: name) pool = true := by
  have hlen := List.length_pos_iff.mpr h
  refine isIn_iff.mpr ⟨List.prefix_append _ _, ?_⟩
  rw [sizeof, List.length_append, List.length_cons]
  omega

/-- The pools differ in the character after the separator. -/
theorem isIn_of_ne {c d : Char} (h : c ≠ d) (rest other : List Char) :
    isIn ('/' :: c :: rest) ('/' :: d :: other) = false := by
  apply Bool.eq_false_iff.mpr
  intro hin
  have hprefix := (List.cons_prefix_cons.mp (isIn_iff.mp hin).1).2
  exact h (List.cons_prefix_cons.mp hprefix).1.symm

/-- Where the objects, the results and the data of a category are. -/
inductive CategoryPool : List Char → Prop where
  | new : CategoryPool objNewCategoryKey
  | output : CategoryPool objOutputCategoryKey
  | data : CategoryPool objDataCategoryKey

section Path
variable {pool category : List Char} (hpool : CategoryPool pool) (hsep : '/' ∉ category)
include hpool hsep

theorem categoryOf_path (sep : Char) (rest affinityKey : List Char) :
    categoryOf (pool ++ sep :: (category ++ '/' :: rest)) affinityKey = .ok category := by
  have hself : isIn (pool ++ sep :: (category ++ '/' :: rest)) pool = true :=
    isIn_path pool sep (List.append_ne_nil_of_right_ne_nil _ (List.cons_ne_nil _ _))
  have hcategory := categoryIn_path hsep pool sep rest affinityKey
  unfold categoryOf
  cases hpool with
  | new => rw [if_pos hself, hcategory]
  | output =>
    have hnew : isIn (objOutputCategoryKey ++ sep :: (category ++ '/' :: rest)) objNewCategoryKey = false :=
      isIn_of_ne (by decide) _ _
    rw [hnew, if_neg Bool.false_ne_true, if_pos hself, hcategory]
  | data =>
    have hnew : isIn (objDataCategoryKey ++ sep :: (category ++ '/' :: rest)) objNewCategoryKey = false :=
      isIn_of_ne (by decide) _ _
    have houtput : isIn (objDataCategoryKey ++ sep :: (category ++ '/' :: rest)) objOutputCategoryKey = false :=
      isIn_of_ne (by decide) _ _
    rw [hnew, houtput, if_neg Bool.false_ne_true, if_neg Bool.false_ne_true, if_pos hself, hcategory]

/-- A path of a category is kept with its category, whatever separates it from its pool. -/
theorem affinityCategory_path (hne : category ≠ []) (sep : Char) (rest : List Char) :
    affinityCategory (objCategoryPath ++ (pool ++ sep :: (category ++ '/' :: rest))) = .ok category := by
  have hin : isIn (objCategoryPath ++ (pool ++ sep :: (category ++ '/' :: rest))) objCategoryPath = true := by
    cases hpool with
    | new => exact isIn_path objCategoryPath '/' (List.cons_ne_nil _ _)
    | output => exact isIn_path objCategoryPath '/' (List.cons_ne_nil _ _)
    | data => exact isIn_path objCategoryPath '/' (List.cons_ne_nil _ _)
  have hkey2 : substr (objCategoryPath ++ (pool ++ sep :: (category ++ '/' :: rest)))
      (sizeof objCategoryPath - 1) none = .ok (pool ++ sep :: (category ++ '/' :: rest)) :=
    substr_after objCategoryPath _
  rw [affinityCategory, if_pos hin, hkey2]
  show (categoryOf (pool ++ sep :: (category ++ '/' :: rest)) _ >>= fun affinityKey => _) = _
  rw [categoryOf_path hpool hsep]
  exact congrArg Except.ok (if_neg hne)

end Path

/-! ### The keys of the pipeline -/

inductive Kind where
  | entry
  | category (k : Nat)
  | config
deriving DecidableEq, Repr

def Key.kind : Key → Kind
  | entryData _ | object _ _ => .entry
  | categoryData k _ | newCategory k _ _ | outputCategory k _ _ => .category k
  | _ => .config

/-- What a key is kept with. Only the entry pool is not the same for both logics. -/
def Key.affinity (entry : List Char) (k : Key) : List Char :=
  match k.kind with
  | .entry => entry
  | .category c => decimal c
  | .config => k.path

theorem find_entry (k : Key) : find k.path objEntryPath = some 0 ↔ k.kind = .entry := by
  rw [find_eq_zero]
  cases k with
  | entryData i => exact iff_of_true ⟨_, (List.append_assoc ..).symm.trans (List.append_assoc ..).symm⟩ rfl
  | object c o => exact iff_of_true ⟨_, (List.append_assoc ..).symm⟩ rfl
  | _ =>
    refine iff_of_false (fun h => ?_) Kind.noConfusion
    cases (List.cons_prefix_cons.mp (List.cons_prefix_cons.mp h).2).1

/-- A configuration key is kept alone. -/
theorem affinityCategory_config (rest : List Char) :
    affinityCategory ('/' :: 'c' :: 'o' :: rest) = .ok ('/' :: 'c' :: 'o' :: rest) := by
  have hout : isIn ('/' :: 'c' :: 'o' :: rest) objCategoryPath = false := by
    apply Bool.eq_false_iff.mpr
    intro hin
    have hprefix := List.cons_prefix_cons.mp (isIn_iff.mp hin).1
    cases (List.cons_prefix_cons.mp (List.cons_prefix_cons.mp hprefix.2).2).1
  rw [affinityCategory, hout]
  rfl

theorem affinityCategory_key (entry : List Char) {k : Key} (h : k.kind ≠ .entry) :
    affinityCategory k.path = .ok (k.affinity entry) := by
  have hpath : ∀ (pool : List Char) (c : Nat) (rest : List Char),
      objCategoryPath ++ pool ++ objPathSep ++ decimal c ++ objPathSep ++ rest =
        objCategoryPath ++ (pool ++ '/' :: (decimal c ++ '/' :: rest)) := by
    intro pool c rest
    simp only [List.append_assoc]
    rfl
  have hsep : ∀ c, '/' ∉ decimal c := notMem_decimal rfl
  cases k with
  | entryData i => exact absurd rfl h
  | object c o => exact absurd rfl h
  | categoryData c i =>
    rw [Key.path, objDataCategoryPath, hpath]
    exact affinityCategory_path .data (hsep c) (decimal_ne_nil c) '/' _
  | newCategory c _ _ =>
    rw [Key.path, objNewCategoryPath, hpath]
    exact affinityCategory_path .new (hsep c) (decimal_ne_nil c) '/' _
  | outputCategory c _ _ =>
    rw [Key.path, objOutputCategoryPath, hpath]
    exact affinityCategory_path .output (hsep c) (decimal_ne_nil c) '/' _
  | _ => exact affinityCategory_config _

theorem affinityLogic1_key (k : Key) : affinityLogic1 k.path = .ok (k.affinity entryAffinityKey) := by
  unfold affinityLogic1
  by_cases h : k.kind = .entry
  · rw [if_pos ((find_entry k).mpr h), Key.affinity, h]
    rfl
  · rw [if_neg (mt (find_entry k).mp h), affinityCategory_key entryAffinityKey h]

theorem affinityLogic2_key (k : Key) : affinityLogic2 k.path = .ok (k.affinity k.path) := by
  unfold affinityLogic2
  by_cases h : k.kind = .entry
  · rw [if_pos ((find_entry k).mpr h), Key.affinity, h]
    rfl
  · rw [if_neg (mt (find_entry k).mp h), affinityCategory_key k.path h]

/-! ### The names of different sets -/

theorem decimal_ne_cons {c : Char} (h : c.isDigit = false) (n : Nat) (rest : List Char) :
    decimal n ≠ c :: rest := by
  intro he
  apply notMem_decimal h n
  rw [he]
  exact List.mem_cons_self ..

theorem path_cons (k : Key) : ∃ rest, k.path = '/' :: rest := by
  cases k <;> exact ⟨_, rfl⟩

theorem path_ne_decimal (k : Key) (n : Nat) : k.path ≠ decimal n := by
  obtain ⟨rest, hrest⟩ := path_cons k
  rw [hrest]
  exact (decimal_ne_cons rfl n rest).symm

theorem path_ne_entryAffinityKey (k : Key) : k.path ≠ entryAffinityKey := by
  obtain ⟨rest, hrest⟩ := path_cons k
  rw [hrest]
  intro h
  cases (List.cons.inj h).1

theorem decimal_ne_entryAffinityKey (n : Nat) : decimal n ≠ entryAffinityKey := decimal_ne_cons rfl n _

theorem decimal_inj {m n : Nat} : decimal m = decimal n ↔ m = n := ⟨decimal_injective, congrArg decimal⟩

theorem affinity1_eq_iff {k k' : Key} (h : k ≠ k') :
    k.affinity entryAffinityKey = k'.affinity entryAffinityKey ↔
      (k.kind = .entry ∧ k'.kind = .entry) ∨ ∃ c, k.kind = .category c ∧ k'.kind = .category c := by
  have hpath : k.path ≠ k'.path := mt Key.path_injective h
  unfold Key.affinity
  cases k.kind with
  | entry =>
    cases k'.kind with
    | entry => exact iff_of_true rfl (.inl ⟨rfl, rfl⟩)
    | category c' => exact iff_of_false (decimal_ne_entryAffinityKey c').symm (by simp)
    | config => exact iff_of_false (path_ne_entryAffinityKey k').symm (by simp)
  | category c =>
    cases k'.kind with
    | entry => exact iff_of_false (decimal_ne_entryAffinityKey c) (by simp)
    | category c' => exact decimal_inj.trans (by simp [eq_comm])
    | config => exact iff_of_false (path_ne_decimal k' c).symm (by simp)
  | config =>
    cases k'.kind with
    | entry => exact iff_of_false (path_ne_entryAffinityKey k) (by simp)
    | category c' => exact iff_of_false (path_ne_decimal k c') (by simp)
    | config => exact iff_of_false hpath (by simp)

theorem affinity2_eq_iff {k k' : Key} (h : k ≠ k') :
    k.affinity k.path = k'.affinity k'.path ↔ ∃ c, k.kind = .category c ∧ k'.kind = .category c := by
  have hpath : k.path ≠ k'.path := mt Key.path_injective h
  unfold Key.affinity
  cases k.kind with
  | category c =>
    cases k'.kind with
    | category c' => exact decimal_inj.trans (by simp [eq_comm])
    | entry => exact iff_of_false (path_ne_decimal k' c).symm (by simp)
    | config => exact iff_of_false (path_ne_decimal k' c).symm (by simp)
  | _ =>
    cases k'.kind with
    | category c' => exact iff_of_false (path_ne_decimal k c') (by simp)
    | entry => exact iff_of_false hpath (by simp)
    | config => exact iff_of_false hpath (by simp)

/-- The logic names a set for every key, and two keys the same set exactly when
their kinds are together. -/
structure Groups (logic : List Char → Except Exception (List Char)) (together : Kind → Kind → Prop) :
    Prop where
  total : ∀ k : Key, ∃ name, logic k.path = .ok name
  eq_iff : ∀ k k' : Key, k ≠ k' → (logic k.path = logic k'.path ↔ together k.kind k'.kind)

/-- **Affinity sets are the entry pool and the categories** with logic 1, and the
categories alone with logic 2. -/
theorem affinity_groups :
    Groups affinityLogic1 (fun a b =>
      (a = .entry ∧ b = .entry) ∨ ∃ c, a = .category c ∧ b = .category c) ∧
    Groups affinityLogic2 (fun a b => ∃ c, a = .category c ∧ b = .category c) := by
  refine ⟨⟨fun k => ⟨_, affinityLogic1_key k⟩, fun k k' h => ?_⟩,
    ⟨fun k => ⟨_, affinityLogic2_key k⟩, fun k k' h => ?_⟩⟩
  · rw [affinityLogic1_key, affinityLogic1_key, Except.ok.injEq]
    exact affinity1_eq_iff h
  · rw [affinityLogic2_key, affinityLogic2_key, Except.ok.injEq]
    exact affinity2_eq_iff h

end CascadePlayground.Affinity
