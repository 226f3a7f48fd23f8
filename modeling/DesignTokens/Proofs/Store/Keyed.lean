import DesignTokens.Proofs.Store.Tokens

/-!
# Tokens under keys

A store can be kept as a list of entries, each a token under a key.  The key repeats the path of
the token, and nothing but the way in which the entries are changed makes the two agree: a token is
put under the path that it has, and a token that is changed in place has to keep its path.

`Store.keyed` is the list of entries that stands for a store.  Each operation on entries, as long
as it keeps to these rules, does to them what the store operation does to the store.
-/

namespace DesignTokens

/-- Tokens under keys, in order of insertion. -/
@[ext]
structure Keyed where
  entries : List (String × Token)
  deriving DecidableEq, Repr

namespace Keyed

def empty : Keyed := ⟨[]⟩

def keys (m : Keyed) : List String := m.entries.map Prod.fst

def tokens (m : Keyed) : List Token := m.entries.map Prod.snd

/-- The paths that the tokens carry, whatever their keys are. -/
def paths (m : Keyed) : List String := m.tokens.map Token.path

def size (m : Keyed) : Nat := m.entries.length

/-- The token under a key. -/
def get? (m : Keyed) (key : String) : Option Token := m.entries.lookup key

/-- Puts a token under its path: in place of the one that was there, or else at the end. -/
def insert (m : Keyed) (t : Token) : Keyed :=
  if t.path ∈ m.keys then
    ⟨m.entries.map fun e => if e.1 = t.path then (e.1, t) else e⟩
  else ⟨m.entries ++ [(t.path, t)]⟩

/-- Takes out the entry of a key; the others keep their order. -/
def remove (m : Keyed) (key : String) : Keyed := ⟨m.entries.filter fun e => e.1 != key⟩

/-- Changes the token under a key in place, its path included. -/
def modify (m : Keyed) (key : String) (f : Token → Token) : Keyed :=
  ⟨m.entries.map fun e => if e.1 = key then (e.1, f e.2) else e⟩

end Keyed

namespace Store

variable {locked : String → Bool}

/-- The entries that stand for a store: each token under its own path. -/
def keyed (s : Store locked) : Keyed := ⟨s.tokens.map fun t => (t.path, t)⟩

variable {s : Store locked} {t : Token} {path : String}

theorem keyed_empty : (empty : Store locked).keyed = Keyed.empty := rfl

/-! ## Reading -/

@[simp]
theorem tokens_keyed (s : Store locked) : s.keyed.tokens = s.tokens := by
  simp [keyed, Keyed.tokens, Function.comp_def]

@[simp]
theorem keys_keyed (s : Store locked) : s.keyed.keys = s.paths := by
  simp [keyed, Keyed.keys, paths, Function.comp_def]

@[simp]
theorem paths_keyed (s : Store locked) : s.keyed.paths = s.paths := by
  simp [Keyed.paths, paths]

theorem size_keyed (s : Store locked) : s.keyed.size = s.size := List.length_map _

@[simp]
theorem get?_keyed (s : Store locked) (path : String) : s.keyed.get? path = s.get? path := by
  change (s.tokens.map fun t => (t.path, t)).lookup path = s.tokens.find? fun t => t.path == path
  induction s.tokens with
  | nil => rfl
  | cons t ts ih =>
    rw [List.map_cons, List.lookup_cons, List.find?_cons, ih]
    by_cases hpath : t.path = path
    · simp [hpath]
    · have hkey : (path == t.path) = false := beq_eq_false_iff_ne.mpr (Ne.symm hpath)
      have htoken : (t.path == path) = false := beq_eq_false_iff_ne.mpr hpath
      simp only [hkey, htoken]

/-! ## Changing -/

theorem insert_keyed (s : Store locked) (t : Token) : s.keyed.insert t = (s.insert t).keyed := by
  by_cases hmem : t.path ∈ s.paths
  · -- The entry of the path holds the new token, as the store does.
    have hcontains : s.contains t.path = true := contains_iff.mpr hmem
    simp only [Keyed.insert, keys_keyed, hmem, if_true, insert, hcontains, dif_pos]
    ext1
    simp only [keyed, edit, List.map_map]
    apply List.map_congr_left
    intro u _
    by_cases hpath : u.path = t.path
    · simp [editToken, hpath]
    · simp [editToken, hpath]
  · simp only [Keyed.insert, keys_keyed, hmem, if_false]
    ext1
    simp [keyed, tokens_insert_of_free hmem]

theorem remove_keyed (s : OpenStore) (path : String) :
    s.keyed.remove path = (s.erase path).keyed := by
  ext1
  simp only [keyed, Keyed.remove, tokens_erase, List.filter_map]
  rfl

/-- A change in place that leaves the path alone changes the entries as it does the store. -/
theorem modify_keyed {f : Token → Token} (hf : ∀ t, (f t).path = t.path) (s : Store locked)
    (path : String) : s.keyed.modify path f = (s.edit path f).keyed := by
  ext1
  simp only [keyed, Keyed.modify, edit, List.map_map]
  apply List.map_congr_left
  intro t _
  have hkept : ({ f t with path := t.path } : Token) = f t := by rw [← hf t]
  by_cases hpath : t.path = path
  · simp only [Function.comp_apply, editToken, hpath, if_true]
    rw [← hpath, hkept]
  · simp [editToken, hpath]

theorem clear_keyed (s : OpenStore) : s.clear.keyed = Keyed.empty := by
  rw [clear_eq_empty, keyed_empty]

/-! ## Agreement of keys and paths -/

/-- In the entries that stand for a store the paths are distinct, exactly they are found, and what
is found under a path has this path. -/
theorem keyed_consistent (s : Store locked) :
    s.keyed.paths.Nodup ∧
      (∀ p, (s.keyed.get? p).isSome = true ↔ p ∈ s.keyed.paths) ∧
      (∀ p t, s.keyed.get? p = some t → t.path = p) ∧ s.keyed.size = s.keyed.paths.length := by
  refine ⟨?_, ?_, ?_, ?_⟩
  · rw [paths_keyed]
    exact s.nodup_paths
  · intro p
    rw [get?_keyed, paths_keyed]
    constructor
    · intro hfound
      rcases Option.isSome_iff_exists.mp hfound with ⟨t, ht⟩
      exact mem_paths.mpr ⟨t, get?_eq_some_iff.mp ht⟩
    · intro hmem
      exact Option.isSome_iff_exists.mpr (exists_get?_of_mem_paths hmem)
  · intro p t hfound
    rw [get?_keyed] at hfound
    exact (get?_eq_some_iff.mp hfound).2
  · rw [size_keyed, paths_keyed, size_eq_length_paths]

end Store
end DesignTokens
