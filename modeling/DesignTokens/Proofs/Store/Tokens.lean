import DesignTokens.Store.Basic
import Mathlib.Data.List.Nodup

/-!
# What the store operations do to the tokens

Each operation of a store is described once by the list of tokens that it leaves.  Since the paths
of a store are distinct, a token is determined by its path, and looking up a path is the same as
finding the token that stands there.
-/

namespace DesignTokens
namespace Store

variable {locked : String → Bool} {s : Store locked} {t u : Token} {path : String}

/-! ## Looking up -/

theorem nodup_paths (s : Store locked) : s.paths.Nodup := s.distinct

theorem mem_paths : path ∈ s.paths ↔ ∃ t ∈ s.tokens, t.path = path := by
  simp [paths]

theorem path_mem_paths (ht : t ∈ s.tokens) : t.path ∈ s.paths := List.mem_map_of_mem ht

/-- No two tokens of a store stand at the same path. -/
theorem eq_of_path_eq (ht : t ∈ s.tokens) (hu : u ∈ s.tokens) (h : t.path = u.path) : t = u :=
  List.inj_on_of_nodup_map s.distinct ht hu h

theorem contains_eq_false_iff : s.contains path = false ↔ path ∉ s.paths := by
  rw [← Bool.not_eq_true, contains_iff]

theorem get?_eq_some_iff : s.get? path = some t ↔ t ∈ s.tokens ∧ t.path = path := by
  constructor
  · intro h
    refine ⟨List.mem_of_find?_eq_some h, ?_⟩
    simpa using List.find?_some h
  · intro hfound
    rcases hfound with ⟨ht, rfl⟩
    cases h : s.get? t.path with
    | none => simpa using List.find?_eq_none.mp h t ht
    | some u =>
      have hu : u.path = t.path := by simpa using List.find?_some h
      rw [eq_of_path_eq (List.mem_of_find?_eq_some h) ht hu]

theorem exists_get?_of_mem_paths (h : path ∈ s.paths) : ∃ t, s.get? path = some t := by
  rcases mem_paths.mp h with ⟨t, ht, hpath⟩
  exact ⟨t, get?_eq_some_iff.mpr ⟨ht, hpath⟩⟩

theorem size_eq_length_paths (s : Store locked) : s.size = s.paths.length := by
  simp [size, paths]

/-! ## Other orders -/

section Perm

variable {locked' : String → Bool} {s' : Store locked'}

theorem contains_eq_of_perm (h : s.tokens.Perm s'.tokens) : s.contains = s'.contains := by
  funext path
  rw [Bool.eq_iff_iff, contains_iff, contains_iff]
  exact (h.map Token.path).mem_iff

theorem get?_eq_of_perm (h : s.tokens.Perm s'.tokens) (path : String) :
    s.get? path = s'.get? path := by
  refine Option.ext fun t => ?_
  rw [get?_eq_some_iff, get?_eq_some_iff, h.mem_iff]

end Perm

/-! ## Changing -/

theorem tokens_edit (s : Store locked) (path : String) (f : Token → Token) :
    (s.edit path f).tokens = s.tokens.map (editToken path f) := rfl

/-- A token at a free path comes last. -/
theorem tokens_insert_of_free (h : t.path ∉ s.paths) : (s.insert t).tokens = s.tokens ++ [t] := by
  have hfree : ¬ s.contains t.path = true := fun hc => h (contains_iff.mp hc)
  simp [insert, hfree]

theorem insertNew_of_free (h : t.path ∉ s.paths) : s.insertNew t = .ok (s.insert t) := by
  have hfree : ¬ s.contains t.path = true := fun hc => h (contains_iff.mp hc)
  simp [insertNew, hfree]

/-- Removing a token of an open store keeps the others in their order. -/
theorem tokens_erase (s : OpenStore) (path : String) :
    (s.erase path).tokens = s.tokens.filter fun t => t.path != path := by
  simp [erase, filter]

/-- Removing what is not there changes nothing. -/
theorem erase_of_get?_eq_none {s : OpenStore} (h : s.get? path = none) : s.erase path = s := by
  apply Store.ext
  rw [tokens_erase]
  apply List.filter_eq_self.mpr
  intro t ht
  simpa [bne] using List.find?_eq_none.mp h t ht

theorem paths_erase (s : OpenStore) (path : String) :
    (s.erase path).paths = s.paths.filter fun p => p != path := by
  rw [paths, tokens_erase, paths, List.filter_map]
  rfl

/-- A token of an open store that moves to a free path comes last, under its new path. -/
theorem move_eq_ok {s : OpenStore} {target : String} (ht : t ∈ s.tokens)
    (hne : t.path ≠ target) (hfree : target ∉ s.paths) :
    ∃ s', s.move t.path target = .ok s' ∧
      s'.tokens = (s.tokens.filter fun u => u.path != t.path) ++ [{ t with path := target }] := by
  have hget : s.get? t.path = some t := get?_eq_some_iff.mpr ⟨ht, rfl⟩
  have hcontains : ¬ s.contains target = true := fun hc => hfree (contains_iff.mp hc)
  have htake : s.take? t.path = some (t, s.erase t.path) := by simp [take?, hget]
  refine ⟨(s.erase t.path).insert { t with path := target }, ?_, ?_⟩
  · simp [move, hne, hcontains, htake]
  · -- Taking the token out frees no other path.
    have hstill : target ∉ (s.erase t.path).paths := by
      rw [paths_erase]
      exact fun h => hfree (List.mem_filter.mp h).1
    rw [tokens_insert_of_free hstill, tokens_erase]

/-! ## Emptying and building -/

/-- Tokens at distinct free paths come after the others, in their order. -/
theorem tokens_insertAll {ts : List Token} (h : (s.paths ++ ts.map Token.path).Nodup) :
    (s.insertAll ts).tokens = s.tokens ++ ts := by
  induction ts generalizing s with
  | nil => exact (List.append_nil _).symm
  | cons t ts ih =>
    have hfree : t.path ∉ s.paths := by
      intro hmem
      exact (List.nodup_append.mp h).2.2 _ hmem _ List.mem_cons_self rfl
    have htokens := tokens_insert_of_free hfree
    have hnext : ((s.insert t).paths ++ ts.map Token.path).Nodup := by
      simpa [paths, htokens] using h
    calc
      (s.insertAll (t :: ts)).tokens = ((s.insert t).insertAll ts).tokens := rfl
      _ = (s.insert t).tokens ++ ts := ih hnext
      _ = s.tokens ++ t :: ts := by rw [htokens, List.append_assoc, List.singleton_append]

/-- A store is what comes of inserting its own tokens. -/
theorem ofList_tokens (s : Store locked) : ofList s.tokens = s := by
  apply Store.ext
  have hdistinct : ((empty : Store locked).paths ++ s.tokens.map Token.path).Nodup := s.distinct
  exact tokens_insertAll hdistinct

theorem clear_eq_empty (s : OpenStore) : s.clear = empty := by
  apply Store.ext
  simp [clear, filter, empty]

end Store
end DesignTokens
