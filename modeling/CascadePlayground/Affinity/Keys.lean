import CascadePlayground.Text.Decimal

/-! The keys of the affinity set pipeline.

The paths are the macros of `common.hpp`. `Key` lists the keys that the client
and the stages of the pipeline put, and `Key.path` is the string each of them is
in the store. Different keys are different strings (`Key.path_injective`): the
first characters tell which of the macros was used (`family`), and what follows
is made of numbers with separators between them. -/
namespace CascadePlayground.Affinity
open Text

/-! ### The macros -/

def objPathSep : List Char := "/".toList
def objEntryPath : List Char := objPathSep ++ "entry".toList
def objCategoryPath : List Char := objPathSep ++ "category".toList
def objNewCategoryKey : List Char := objPathSep ++ "new".toList
def objOutputCategoryKey : List Char := objPathSep ++ "output".toList
def objDataCategoryKey : List Char := objPathSep ++ "data".toList

def objConfigPath : List Char := objPathSep ++ "config".toList
def objConfigEntryPartSize : List Char := objConfigPath ++ objPathSep ++ "entry_part_size".toList
def objConfigNumEntryParts : List Char := objConfigPath ++ objPathSep ++ "num_entry_parts".toList
def objConfigDataPartSize : List Char := objConfigPath ++ objPathSep ++ "data_part_size".toList
def objConfigNumDataParts : List Char := objConfigPath ++ objPathSep ++ "num_data_parts".toList
def objConfigClientData : List Char := objConfigPath ++ objPathSep ++ "client_".toList

def objNewCategoryPath : List Char := objCategoryPath ++ objNewCategoryKey
def objOutputCategoryPath : List Char := objCategoryPath ++ objOutputCategoryKey
def objDataCategoryPath : List Char := objCategoryPath ++ objDataCategoryKey

/-! ### The keys -/

inductive Key where
  | entryPartSize
  | numEntryParts
  | dataPartSize
  | numDataParts
  /-- The address of a client. -/
  | clientData (clientId : Nat)
  | entryData (i : Nat)
  | categoryData (category i : Nat)
  /-- An object of a client, on its way to the entry stage. -/
  | object (clientId objectId : Nat)
  | newCategory (category clientId objectId : Nat)
  | outputCategory (category clientId objectId : Nat)
deriving DecidableEq, Repr

/-- `<client_id>_<object_id>` -/
def objectName (clientId objectId : Nat) : List Char := decimal clientId ++ '_' :: decimal objectId

def Key.path : Key → List Char
  | entryPartSize => objConfigEntryPartSize
  | numEntryParts => objConfigNumEntryParts
  | dataPartSize => objConfigDataPartSize
  | numDataParts => objConfigNumDataParts
  | clientData c => objConfigClientData ++ decimal c
  | entryData i => objEntryPath ++ objPathSep ++ "data_".toList ++ decimal i
  | categoryData k i => objDataCategoryPath ++ objPathSep ++ decimal k ++ objPathSep ++ decimal i
  | object c o => objEntryPath ++ objPathSep ++ objectName c o
  | newCategory k c o => objNewCategoryPath ++ objPathSep ++ decimal k ++ objPathSep ++ objectName c o
  | outputCategory k c o =>
    objOutputCategoryPath ++ objPathSep ++ decimal k ++ objPathSep ++ objectName c o

/-! ### Different keys are different strings -/

/-- What the characters of a path say about its key. -/
inductive Family where
  | entryPartSize | numEntryParts | dataPartSize | numDataParts | clientData
  | entryData | categoryData | object | newCategory | outputCategory | other
deriving DecidableEq, Repr

/-- Read off the characters in which the paths differ. -/
def family (cs : List Char) : Family :=
  match cs.drop 1 with
  | 'c' :: 'o' :: rest =>
    match rest.drop 5 with
    | 'e' :: _ => .entryPartSize
    | 'n' :: 'u' :: 'm' :: '_' :: 'e' :: _ => .numEntryParts
    | 'n' :: 'u' :: 'm' :: '_' :: 'd' :: _ => .numDataParts
    | 'd' :: _ => .dataPartSize
    | 'c' :: _ => .clientData
    | _ => .other
  | 'c' :: 'a' :: rest =>
    match rest.drop 7 with
    | 'n' :: _ => .newCategory
    | 'o' :: _ => .outputCategory
    | 'd' :: _ => .categoryData
    | _ => .other
  | 'e' :: rest =>
    match rest.drop 5 with
    | 'd' :: _ => .entryData
    | _ => .object
  | _ => .other

def Key.family : Key → Family
  | entryPartSize => .entryPartSize
  | numEntryParts => .numEntryParts
  | dataPartSize => .dataPartSize
  | numDataParts => .numDataParts
  | clientData _ => .clientData
  | entryData _ => .entryData
  | categoryData _ _ => .categoryData
  | object _ _ => .object
  | newCategory _ _ _ => .newCategory
  | outputCategory _ _ _ => .outputCategory

theorem family_path (k : Key) : Affinity.family k.path = k.family := by
  cases k with
  | object c o =>
    obtain ⟨d, rest, hd, hdigit⟩ := decimal_cons c
    have hne : d ≠ 'd' := by
      intro h
      rw [h] at hdigit
      cases hdigit
    have hpath : (Key.object c o).path = objEntryPath ++ objPathSep ++ d :: (rest ++ '_' :: decimal o) := by
      rw [Key.path, objectName, hd]
      rfl
    rw [hpath]
    show (match d :: (rest ++ '_' :: decimal o) with
      | 'd' :: _ => Family.entryData
      | _ => Family.object) = Family.object
    split
    · next h => exact absurd (List.cons.inj h).1 hne
    · rfl
  | _ => rfl

theorem noDigit_name (o : Nat) : NoDigit ('_' :: decimal o) := noDigit_cons rfl

theorem noDigit_sep (cs : List Char) : NoDigit (objPathSep ++ cs) := noDigit_cons rfl

theorem objectName_injective {c o c' o' : Nat} (h : objectName c o = objectName c' o') :
    c = c' ∧ o = o' := by
  obtain ⟨hc, ho⟩ := decimal_append_inj (noDigit_name o) (noDigit_name o') h
  exact ⟨hc, decimal_injective (List.cons.inj ho).2⟩

/-- The category in a path, and what comes after it. -/
theorem category_injective {path : List Char} {k k' : Nat} {cs ds : List Char}
    (h : path ++ objPathSep ++ decimal k ++ objPathSep ++ cs =
      path ++ objPathSep ++ decimal k' ++ objPathSep ++ ds) : k = k' ∧ cs = ds := by
  simp only [List.append_assoc] at h
  have h := List.append_cancel_left (List.append_cancel_left h)
  obtain ⟨hk, hrest⟩ := decimal_append_inj (noDigit_sep cs) (noDigit_sep ds) h
  exact ⟨hk, List.append_cancel_left hrest⟩

theorem Key.path_injective {k k' : Key} (h : k.path = k'.path) : k = k' := by
  have hfamily := congrArg Affinity.family h
  rw [family_path, family_path] at hfamily
  cases k <;> cases k' <;> cases hfamily
  case entryPartSize => rfl
  case numEntryParts => rfl
  case dataPartSize => rfl
  case numDataParts => rfl
  case clientData c c' => rw [decimal_injective (List.append_cancel_left h)]
  case entryData i i' => rw [decimal_injective (List.append_cancel_left h)]
  case categoryData c i c' i' =>
    obtain ⟨rfl, hi⟩ := category_injective h
    rw [decimal_injective hi]
  case object c o c' o' =>
    obtain ⟨rfl, rfl⟩ := objectName_injective (List.append_cancel_left h)
    rfl
  case newCategory k c o k' c' o' =>
    obtain ⟨rfl, hname⟩ := category_injective h
    obtain ⟨rfl, rfl⟩ := objectName_injective hname
    rfl
  case outputCategory k c o k' c' o' =>
    obtain ⟨rfl, hname⟩ := category_injective h
    obtain ⟨rfl, rfl⟩ := objectName_injective hname
    rfl

end CascadePlayground.Affinity
