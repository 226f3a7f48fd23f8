import DesignTokens.Proofs.Store.Following

/-!
# The value that is found

Following the references of a path stops at the first token that has a resolved value or refers to
nothing.  `Store.FoundAfter` says which value is found there, and after how many links.  The value
of a path is the one that is found after fewer than 32 links, in a store with resolved values as in
one without.
-/

namespace DesignTokens
namespace Store

variable {locked : String → Bool} {s : Store locked} {t : Token} {p : String} {v : Value}
  {n links : Nat}

/-- A chain of whole references, of a given length, leads from a path to a token with a resolved
value or to one that refers to nothing, and the value stands there. -/
inductive FoundAfter (s : Store locked) : Nat → String → Value → Prop
  | resolved {t : Token} {v : Value} (ht : t ∈ s.tokens) (hv : t.resolved = some v) :
      s.FoundAfter 0 t.path v
  | own {t : Token} (ht : t ∈ s.tokens) (hfresh : t.resolved = none)
      (hform : t.dependence s.contains = .independent) : s.FoundAfter 0 t.path t.value
  | link {n : Nat} {t : Token} {target : String} {v : Value} (ht : t ∈ s.tokens)
      (hfresh : t.resolved = none) (hform : t.dependence s.contains = .whole target)
      (hrest : s.FoundAfter n target v) : s.FoundAfter (n + 1) t.path v

theorem FoundAfter.mem_paths (h : s.FoundAfter n p v) : p ∈ s.paths := by
  cases h with
  | resolved ht _ => exact path_mem_paths ht
  | own ht _ _ => exact path_mem_paths ht
  | link ht _ _ _ => exact path_mem_paths ht

theorem follow?_succ_of_resolved (hv : t.resolved = some v) :
    s.follow? (links + 1) t = some v := by
  unfold follow?
  rw [hv]

/-- What is found from a token: its resolved value, its own value, or what is found from the token
that it refers to. -/
theorem FoundAfter.cases_of_mem (ht : t ∈ s.tokens) (h : s.FoundAfter n t.path v) :
    t.resolved = some v ∨
      t.resolved = none ∧ t.dependence s.contains = .independent ∧ t.value = v ∨
      t.resolved = none ∧ ∃ m target, n = m + 1 ∧ t.dependence s.contains = .whole target ∧
        s.FoundAfter m target v := by
  generalize hpath : t.path = p at h
  cases h with
  | resolved hu hv =>
    obtain rfl := eq_of_path_eq ht hu hpath
    exact .inl hv
  | own hu hfresh hform =>
    obtain rfl := eq_of_path_eq ht hu hpath
    exact .inr (.inl ⟨hfresh, hform, rfl⟩)
  | link hu hfresh hform hrest =>
    obtain rfl := eq_of_path_eq ht hu hpath
    exact .inr (.inr ⟨hfresh, _, _, rfl, hform, hrest⟩)

/-- Following a token finds what stands at the end of a chain that has fewer links than may be
followed. -/
theorem follow?_eq_some_iff_found (ht : t ∈ s.tokens) :
    s.follow? links t = some v ↔ ∃ n, n < links ∧ s.FoundAfter n t.path v := by
  induction links generalizing t with
  | zero => simp [follow?]
  | succ links ih =>
    constructor
    · intro h
      cases hresolved : t.resolved with
      | some w =>
        rw [follow?_succ_of_resolved hresolved] at h
        exact ⟨0, Nat.succ_pos links, .resolved ht (hresolved.trans h)⟩
      | none =>
        rw [follow?_succ hresolved] at h
        split at h
        · next hform =>
          exact ⟨0, Nat.succ_pos links, Option.some.inj h ▸ .own ht hresolved hform⟩
        · next target hform =>
          obtain ⟨next, hnext, hvalue⟩ := Option.bind_eq_some_iff.mp h
          obtain ⟨hmem, rfl⟩ := get?_eq_some_iff.mp hnext
          obtain ⟨n, hn, hfound⟩ := (ih hmem).mp hvalue
          exact ⟨n + 1, Nat.succ_lt_succ hn, .link ht hresolved hform hfound⟩
        · cases h
    · rintro ⟨n, hn, hfound⟩
      rcases hfound.cases_of_mem ht with hv | ⟨hfresh, hform, rfl⟩ |
        ⟨hfresh, m, target, rfl, hform, hrest⟩
      · exact follow?_succ_of_resolved hv
      · rw [follow?_succ hfresh, hform]
      · obtain ⟨next, hmem, rfl⟩ := Store.mem_paths.mp hrest.mem_paths
        rw [follow?_succ hfresh, hform]
        dsimp only
        rw [get?_eq_some_iff.mpr ⟨hmem, rfl⟩, Option.bind_some]
        exact (ih hmem).mpr ⟨m, Nat.lt_of_succ_lt_succ hn, hrest⟩

theorem valueAt?_eq_some_iff_found :
    s.valueAt? p = some v ↔ ∃ n, n < 32 ∧ s.FoundAfter n p v := by
  rw [valueAt?, Option.bind_eq_some_iff]
  constructor
  · rintro ⟨t, ht, hvalue⟩
    obtain ⟨hmem, rfl⟩ := get?_eq_some_iff.mp ht
    exact (follow?_eq_some_iff_found hmem).mp hvalue
  · rintro ⟨n, hn, hfound⟩
    obtain ⟨t, hmem, rfl⟩ := Store.mem_paths.mp hfound.mem_paths
    exact ⟨t, get?_eq_some_iff.mpr ⟨hmem, rfl⟩,
      (follow?_eq_some_iff_found hmem).mpr ⟨n, hn, hfound⟩⟩

/-- If the resolved values on the way are those that a resolution computes, then what is found is
what the path comes to. -/
theorem FoundAfter.comesTo (hs : ∀ t ∈ s.tokens, ∀ v, t.resolved = some v → s.ComesTo t.path v)
    (h : s.FoundAfter n p v) : s.ComesTo p v := by
  induction h with
  | resolved ht hv => exact hs _ ht _ hv
  | own ht _ hform => exact .independent ht hform
  | link ht _ hform _ ih => exact .whole ht hform ih

end Store
end DesignTokens
