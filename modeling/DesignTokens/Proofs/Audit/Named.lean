import DesignTokens.Proofs.Audit.Findings
import DesignTokens.Proofs.Naming.Lenient

/-!
# Tokens and the names they are read as

The audit compares the tokens whose paths can be read at all.  Every one of them has a single name,
that of its path, and this name has a spelling.
-/

namespace DesignTokens
namespace Store

variable {locked : String → Bool} {s : Store locked} {n m : NamedToken}

theorem mem_named_iff : n ∈ s.named ↔ n.token ∈ s.tokens ∧
    ∃ r, Naming.read? n.path = some r ∧ n.name = r.name ∧
      n.compliant = decide (r.strategy = .strict) := by
  rw [named, List.mem_filterMap]
  constructor
  · rintro ⟨t, ht, hread⟩
    obtain ⟨r, hr, rfl⟩ := Option.map_eq_some_iff.mp hread
    exact ⟨ht, r, hr, rfl, rfl⟩
  · rintro ⟨ht, r, hr, hname, hcompliant⟩
    refine ⟨n.token, ht, Option.map_eq_some_iff.mpr ⟨r, hr, ?_⟩⟩
    rw [← hname, ← hcompliant]

theorem nodup_paths_named (s : Store locked) : (s.named.map NamedToken.path).Nodup :=
  s.paths_named_sublist.nodup s.nodup_paths

theorem eq_of_named_path_eq (hn : n ∈ s.named) (hm : m ∈ s.named) (h : n.path = m.path) : n = m :=
  List.inj_on_of_nodup_map s.nodup_paths_named hn hm h

theorem hasSpelling_of_mem_named (h : n ∈ s.named) : Naming.HasSpelling n.name := by
  obtain ⟨_, r, hr, hname, _⟩ := mem_named_iff.mp h
  rw [hname]
  exact Naming.hasSpelling_of_read? hr

end Store
end DesignTokens
