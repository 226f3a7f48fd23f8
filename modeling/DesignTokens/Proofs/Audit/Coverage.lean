import DesignTokens.Audit.Coverage
import DesignTokens.Proofs.Naming.RoundTrip

/-!
# When the coverage has no gaps

A context covers a class when some compliant path of the store names both.  The coverage matrix has
a gap for every class that a context requires and does not cover, and the canonical path of the gap
is read as a name with that context and class.
-/

namespace DesignTokens

/-! ## Cells -/

/-- A compliant path that names the context and the class. -/
def inCell (x : UxContext) (k : PropertyClass) (path : String) : Bool :=
  (Naming.strict? path).any fun n => n.context = some x && n.propertyClass = k

section

variable {x : UxContext} {k : PropertyClass} {p : String}

theorem inCell_of_strict?_eq_none (h : Naming.strict? p = none) : inCell x k p = false := by
  simp [inCell, h]

theorem exists_strict?_of_inCell (h : inCell x k p = true) : ∃ n, Naming.strict? p = some n := by
  cases hstrict : Naming.strict? p with
  | none => simp [inCell_of_strict?_eq_none hstrict] at h
  | some n => exact ⟨n, rfl⟩

/-- The canonical path of a compliant path names the same context and the same class. -/
theorem inCell_path {n : Name} (h : Naming.strict? p = some n) :
    inCell x k n.path = inCell x k p := by
  simp [inCell, h, Naming.strict?_path_of_strict? h, Name.normalized]

end

/-! ## Coverage and gaps -/

namespace Store

variable {locked : String → Bool} {s : Store locked} {x : UxContext} {c : PropertyClass}

/-- Some compliant path names both the context and the class. -/
def Covers (s : Store locked) (x : UxContext) (c : PropertyClass) : Prop :=
  ∃ p ∈ s.paths, ∃ n, Naming.strict? p = some n ∧ n.context = some x ∧ n.propertyClass = c

/-- The matrix cell of a context and a class that nothing covers. -/
def missingCell (x : UxContext) (c : PropertyClass) : CoverageCell :=
  { context := x, propertyClass := c, required := true, present := false }

theorem mem_gaps_iff {cell : CoverageCell} :
    cell ∈ s.coverage.gaps ↔
      ∃ x, ∃ c ∈ x.required, ¬ s.Covers x c ∧ cell = missingCell x c := by
  have hcovers : ∀ x c, (s.names.any fun n => n.context = some x && n.propertyClass = c) = true ↔
      s.Covers x c := by
    intro x c
    simp only [List.any_eq_true, names, List.mem_filterMap, Bool.and_eq_true, decide_eq_true_eq,
      Covers]
    constructor
    · intro hname
      rcases hname with ⟨n, ⟨p, hp, hn⟩, hcell⟩
      exact ⟨p, hp, n, hn, hcell⟩
    · intro hcov
      rcases hcov with ⟨p, hp, n, hn, hcell⟩
      exact ⟨n, ⟨p, hp, hn⟩, hcell⟩
  unfold CoverageReport.gaps coverage
  simp only [List.mem_filter, List.mem_flatMap, List.mem_map, CoverageCell.isGap,
    Bool.and_eq_true, Bool.not_eq_true']
  constructor
  · intro hgap
    rcases hgap with ⟨⟨x, _, c, _, rfl⟩, hrequired, hpresent⟩
    refine ⟨x, c, by simpa using hrequired, fun hcov => ?_, ?_⟩
    · rw [(hcovers x c).mpr hcov] at hpresent
      cases hpresent
    · simp only [missingCell, CoverageCell.mk.injEq, true_and]
      exact ⟨hrequired, hpresent⟩
  · intro hgap
    rcases hgap with ⟨x, c, hrequired, hnot, rfl⟩
    refine ⟨⟨x, by cases x <;> decide, c, by cases c <;> decide, ?_⟩, rfl, rfl⟩
    simp only [missingCell, CoverageCell.mk.injEq, true_and]
    exact ⟨by simpa using hrequired, Bool.eq_false_iff.mpr fun h => hnot ((hcovers x c).mp h)⟩

theorem covers_iff_countP : s.Covers x c ↔ 0 < s.paths.countP (inCell x c) := by
  simp [Covers, List.countP_pos_iff, inCell, Option.any_eq_true]

theorem missingCell_mem_gaps_iff (hrequired : c ∈ x.required) :
    missingCell x c ∈ s.coverage.gaps ↔ ¬ s.Covers x c := by
  rw [mem_gaps_iff]
  constructor
  · intro hgap
    rcases hgap with ⟨x', c', _, hnot, heq⟩
    cases heq
    exact hnot
  · intro hnot
    exact ⟨x, c, hrequired, hnot, rfl⟩

theorem gaps_eq_nil_iff :
    s.coverage.gaps = [] ↔ ∀ x, ∀ c ∈ x.required, s.Covers x c := by
  rw [List.eq_nil_iff_forall_not_mem]
  constructor
  · intro hnone x c hrequired
    refine Classical.byContradiction fun hnot => ?_
    exact hnone _ (mem_gaps_iff.mpr ⟨x, c, hrequired, hnot, rfl⟩)
  · intro hall cell hcell
    rcases mem_gaps_iff.mp hcell with ⟨x, c, hrequired, hnot, _⟩
    exact hnot (hall x c hrequired)

/-- The canonical path of a gap fills it. -/
theorem covers_of_suggestedPath_mem (h : (missingCell x c).suggestedPath ∈ s.paths) :
    s.Covers x c := by
  refine ⟨_, h, _, Naming.strict?_path fun word hword => ?_, rfl, rfl⟩
  cases hword

end Store
end DesignTokens
