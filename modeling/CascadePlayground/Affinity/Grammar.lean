import CascadePlayground.Affinity.Grouping

/-! The paths that `affinity_logic` takes for paths.

A path of a category is its pool, a separator, the category, a separator and the
rest; a path of the entry pool is the pool, or the pool, a separator and the rest.
`affinity_logic` looks for the names of the pools at the front of a key and goes
on one character after them, without looking at that character. So a pool with a
longer name is taken for the pool that its name begins with (`EntryLookalike`,
`PoolLookalike`). On every other key the logic is the grammar
(`affinity_grammar_iff`). -/
namespace CascadePlayground.Affinity
open Text

/-- The character after the pool is `sep`. -/
def PoolPath (sep : Char) (key category : List Char) : Prop :=
  ∃ pool rest, CategoryPool pool ∧ category ≠ [] ∧ '/' ∉ category ∧
    key = objCategoryPath ++ (pool ++ sep :: (category ++ '/' :: rest))

/-- `P/<cat>/<rest>` -/
def CategoryPath (key category : List Char) : Prop := PoolPath '/' key category

def EntryPath (key : List Char) : Prop := key = objEntryPath ∨ objEntryPath ++ objPathSep <+: key

/-- The logic is the grammar at the key: a path of a category is kept with its
category, a path of the entry pool as the logic has it, and a key that is no path alone. -/
structure Recognises (logic : List Char → Except Exception (List Char)) (entry key : List Char) : Prop where
  category : ∀ category, CategoryPath key category → logic key = .ok category
  entry : EntryPath key → logic key = .ok entry
  other : (∀ category, ¬CategoryPath key category) → ¬EntryPath key → logic key = .ok key

/-- In a pool whose name only begins with the name of the entry pool. -/
def EntryLookalike (key : List Char) : Prop := ∃ c rest, c ≠ '/' ∧ key = objEntryPath ++ c :: rest

/-- A path in a pool whose name only begins with the name of a pool of the categories. -/
def PoolLookalike (key : List Char) : Prop := ∃ c category, c ≠ '/' ∧ PoolPath c key category

/-! ### What the logic finds in a key -/

theorem categoryIn_cases {key2 pool : List Char} (h : isIn key2 pool = true) (affinityKey : List Char) :
    categoryIn key2 pool affinityKey = .ok affinityKey ∨
      ∃ sep category rest, '/' ∉ category ∧ key2 = pool ++ sep :: (category ++ '/' :: rest) := by
  obtain ⟨⟨tail, rfl⟩, hlen⟩ := isIn_iff.mp h
  cases tail with
  | nil =>
    rw [List.append_nil, sizeof] at hlen
    omega
  | cons sep key3 =>
    by_cases hsep : '/' ∈ key3
    · obtain ⟨category, rest, rfl, hcategory⟩ := List.eq_append_cons_of_mem hsep
      exact .inr ⟨sep, category, rest, hcategory, rfl⟩
    · exact .inl (categoryIn_of_notMem hsep pool sep affinityKey)

theorem categoryOf_cases (key2 affinityKey : List Char) :
    categoryOf key2 affinityKey = .ok affinityKey ∨
      ∃ pool sep category rest, CategoryPool pool ∧ '/' ∉ category ∧
        key2 = pool ++ sep :: (category ++ '/' :: rest) := by
  have hpool : ∀ {pool : List Char}, CategoryPool pool → isIn key2 pool = true →
      categoryIn key2 pool affinityKey = .ok affinityKey ∨
        ∃ pool sep category rest, CategoryPool pool ∧ '/' ∉ category ∧
          key2 = pool ++ sep :: (category ++ '/' :: rest) := by
    intro pool hpool hin
    apply (categoryIn_cases hin affinityKey).imp_right
    rintro ⟨sep, category, rest, h⟩
    exact ⟨pool, sep, category, rest, hpool, h⟩
  unfold categoryOf
  split
  · next hin => exact hpool .new hin
  · split
    · next hin => exact hpool .output hin
    · split
      · next hin => exact hpool .data hin
      · exact .inl rfl

/-- A key is kept with the category that its path has, or alone. -/
theorem affinityCategory_cases (key : List Char) :
    (∃ sep category, PoolPath sep key category) ∨ affinityCategory key = .ok key := by
  unfold affinityCategory
  split
  · next hin =>
    obtain ⟨⟨key2, rfl⟩, -⟩ := isIn_iff.mp hin
    have hkey2 : substr (objCategoryPath ++ key2) (sizeof objCategoryPath - 1) none = .ok key2 :=
      substr_after objCategoryPath key2
    rw [hkey2]
    show _ ∨ (categoryOf key2 (objCategoryPath ++ key2) >>= fun affinityKey =>
      pure (if affinityKey = [] then objCategoryPath ++ key2 else affinityKey)) = _
    rcases categoryOf_cases key2 (objCategoryPath ++ key2) with h | ⟨pool, sep, category, rest, hpool, hsep, rfl⟩
    · right
      rw [h]
      exact congrArg Except.ok (if_neg (List.cons_ne_nil _ _))
    · by_cases hne : category = []
      · right
        rw [categoryOf_path hpool hsep, hne]
        exact congrArg Except.ok (if_pos rfl)
      · exact .inl ⟨sep, category, pool, rest, hpool, hne, hsep, rfl⟩
  · exact .inr rfl

theorem affinityCategory_poolPath {sep : Char} {key category : List Char} (h : PoolPath sep key category) :
    affinityCategory key = .ok category := by
  obtain ⟨pool, rest, hpool, hne, hsep, rfl⟩ := h
  exact affinityCategory_path hpool hsep hne sep rest

/-! ### Where that is the grammar -/

/-- No pool begins with the name of another, so a path has one separator. -/
theorem CategoryPool.sep_unique {pool pool' : List Char} {sep sep' : Char} {tail tail' : List Char}
    (h : CategoryPool pool) (h' : CategoryPool pool') (he : pool ++ sep :: tail = pool' ++ sep' :: tail') :
    sep = sep' := by
  have hsame : ∀ pool : List Char, pool ++ sep :: tail = pool ++ sep' :: tail' → sep = sep' :=
    fun pool he => (List.cons.inj (List.append_cancel_left he)).1
  have hsecond := congrArg (fun key => key[1]?) he
  cases h with
  | new =>
    cases h' with
    | new => exact hsame _ he
    | _ => cases hsecond
  | output =>
    cases h' with
    | output => exact hsame _ he
    | _ => cases hsecond
  | data =>
    cases h' with
    | data => exact hsame _ he
    | _ => cases hsecond

theorem PoolPath.sep_unique {sep sep' : Char} {key category category' : List Char}
    (h : PoolPath sep key category) (h' : PoolPath sep' key category') : sep = sep' := by
  obtain ⟨pool, rest, hpool, -, -, rfl⟩ := h
  obtain ⟨pool', rest', hpool', -, -, he⟩ := h'
  exact hpool.sep_unique hpool' (List.append_cancel_left he)

theorem PoolPath.length {sep : Char} {key category : List Char} (h : PoolPath sep key category) :
    category.length < key.length := by
  obtain ⟨pool, rest, -, -, -, rfl⟩ := h
  simp only [List.length_append, List.length_cons]
  omega

theorem PoolPath.not_entry {sep : Char} {key category : List Char} (h : PoolPath sep key category) :
    ¬objEntryPath <+: key := by
  obtain ⟨pool, rest, -, -, -, rfl⟩ := h
  intro hentry
  cases (List.cons_prefix_cons.mp (List.cons_prefix_cons.mp hentry).2).1

theorem EntryPath.prefix {key : List Char} (h : EntryPath key) : objEntryPath <+: key := by
  rcases h with rfl | h
  · exact List.prefix_rfl
  · exact (List.prefix_append _ _).trans h

theorem entryPath_iff {key : List Char} (h : objEntryPath <+: key) : EntryPath key ↔ ¬EntryLookalike key := by
  obtain ⟨tail, rfl⟩ := h
  constructor
  · rintro hpath ⟨c, rest, hc, he⟩
    obtain rfl := List.append_cancel_left he
    rcases hpath with hpath | hpath
    · exact List.cons_ne_nil c rest (List.append_right_eq_self.mp hpath)
    · exact hc (List.cons_prefix_cons.mp ((List.prefix_append_right_inj _).mp hpath)).1.symm
  · intro hno
    cases tail with
    | nil => exact .inl (List.append_nil _)
    | cons c rest =>
      by_cases hc : c = '/'
      · exact .inr ((List.prefix_append_right_inj _).mpr (hc ▸ List.prefix_append ['/'] rest))
      · exact absurd ⟨c, rest, hc, rfl⟩ hno

/-- Outside of the entry pool both logics are the same. -/
theorem recognises_category_iff {logic : List Char → Except Exception (List Char)} {entry key : List Char}
    (hentry : ¬objEntryPath <+: key) (hlogic : logic key = affinityCategory key) :
    Recognises logic entry key ↔ ¬PoolLookalike key := by
  constructor
  · rintro h ⟨c, category, hc, hpath⟩
    have hother := h.other (fun _ hpath' => hc (hpath.sep_unique hpath')) (mt EntryPath.prefix hentry)
    rw [hlogic, affinityCategory_poolPath hpath] at hother
    have hlen := hpath.length
    rw [Except.ok.inj hother] at hlen
    exact Nat.lt_irrefl _ hlen
  · intro hno
    refine ⟨fun category hpath => hlogic.trans (affinityCategory_poolPath hpath),
      fun h => absurd h.prefix hentry, fun hpath _ => ?_⟩
    rw [hlogic]
    rcases affinityCategory_cases key with ⟨sep, category, h⟩ | h
    · by_cases hsep : sep = '/'
      · subst hsep
        exact absurd h (hpath category)
      · exact absurd ⟨sep, category, hsep, h⟩ hno
    · exact h

/-- In the entry pool the keys that are no paths tell the logics apart. -/
theorem recognises_entry_iff {logic : List Char → Except Exception (List Char)} {entry key : List Char}
    (hentry : objEntryPath <+: key) (hlogic : logic key = .ok entry) :
    Recognises logic entry key ↔ EntryPath key ∨ entry = key := by
  have hno : ∀ category, ¬CategoryPath key category := fun _ h => h.not_entry hentry
  constructor
  · intro h
    by_cases hpath : EntryPath key
    · exact .inl hpath
    · exact .inr (Except.ok.inj (hlogic.symm.trans (h.other hno hpath)))
  · intro h
    refine ⟨fun category hpath => absurd hpath (hno category), fun _ => hlogic, fun _ hpath => ?_⟩
    rcases h with h | h
    · exact absurd h hpath
    · rw [hlogic, h]

/-- **The logic is the grammar exactly where no name is taken for another**: with
logic 1 on the keys that are no lookalikes, with logic 2 also on those of the entry pool. -/
theorem affinity_grammar_iff (key : List Char) :
    (Recognises affinityLogic1 entryAffinityKey key ↔ ¬EntryLookalike key ∧ ¬PoolLookalike key) ∧
      (Recognises affinityLogic2 key key ↔ ¬PoolLookalike key) := by
  by_cases hentry : objEntryPath <+: key
  · have hfind := find_eq_zero.mpr hentry
    have hpool : ¬PoolLookalike key := fun ⟨_, _, _, h⟩ => h.not_entry hentry
    have hname : entryAffinityKey ≠ key := by
      rintro rfl
      cases (List.cons_prefix_cons.mp hentry).1
    constructor
    · rw [recognises_entry_iff hentry (if_pos hfind), or_iff_left hname, entryPath_iff hentry]
      exact (and_iff_left hpool).symm
    · rw [recognises_entry_iff hentry (if_pos hfind)]
      exact iff_of_true (.inr rfl) hpool
  · have hfind := mt find_eq_zero.mp hentry
    have hlook : ¬EntryLookalike key := fun ⟨c, rest, _, h⟩ => hentry ⟨c :: rest, h.symm⟩
    constructor
    · rw [recognises_category_iff hentry (if_neg hfind)]
      exact (and_iff_right hlook).symm
    · exact recognises_category_iff hentry (if_neg hfind)

/-- Two pools that are not the pipeline's: the keys of one are kept with the entry
pool, and a key of the other with a category. -/
theorem newspaper_not_recognised :
    affinityLogic1 "/entrypoint/1_2".toList = .ok entryAffinityKey ∧
      ¬Recognises affinityLogic1 entryAffinityKey "/entrypoint/1_2".toList ∧
      affinityLogic1 "/category/newspaper/1_2".toList = .ok "paper".toList ∧
      ¬Recognises affinityLogic1 entryAffinityKey "/category/newspaper/1_2".toList ∧
      affinityLogic2 "/category/newspaper/1_2".toList = .ok "paper".toList ∧
      ¬Recognises affinityLogic2 "/category/newspaper/1_2".toList "/category/newspaper/1_2".toList := by
  have hpoint : affinityLogic1 "/entrypoint/1_2".toList = .ok entryAffinityKey := by decide
  have hentry : objEntryPath <+: "/entrypoint/1_2".toList := by decide
  have hpaper : ¬objEntryPath <+: "/category/newspaper/1_2".toList := by decide
  have hlook : PoolLookalike "/category/newspaper/1_2".toList :=
    ⟨'s', "paper".toList, by decide, objNewCategoryKey, "1_2".toList, .new, by decide, by decide, by decide⟩
  have hlogic1 : affinityLogic1 "/category/newspaper/1_2".toList =
      affinityCategory "/category/newspaper/1_2".toList := if_neg (by decide)
  have hlogic2 : affinityLogic2 "/category/newspaper/1_2".toList =
      affinityCategory "/category/newspaper/1_2".toList := if_neg (by decide)
  refine ⟨hpoint, fun h => ?_, by decide, fun h => ?_, by decide, fun h => ?_⟩
  · rcases (recognises_entry_iff hentry hpoint).mp h with (h | h) | h
    · exact absurd h (by decide)
    · exact absurd h (by decide)
    · exact absurd h (by decide)
  · exact (recognises_category_iff hpaper hlogic1).mp h hlook
  · exact (recognises_category_iff hpaper hlogic2).mp h hlook

end CascadePlayground.Affinity
