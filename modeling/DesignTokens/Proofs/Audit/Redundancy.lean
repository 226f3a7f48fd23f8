import DesignTokens.Proofs.Audit.Named
import DesignTokens.Proofs.Token.Alike
import Mathlib.Data.List.Perm.Subperm

/-!
# Redundant tokens

An audit groups the readable tokens by their property class, their intent and the key of the value
that their references lead to.  Two of them are found in one group exactly if they agree in all
three, and no path is in two groups.

The key of a colour has no opacity.  So the values of one group are hex colours of the same channels
or are written alike, and they are the same exactly if they agree in their opacity.
-/

namespace DesignTokens
namespace Store

variable {locked : String → Bool} {s : Store locked} {keywords : List String} {threshold : Nat}
  {group : List String × List (NamedToken × String)} {n m : NamedToken} {paths : List String}

/-- The readable tokens whose references lead to a value, each with the key of that value. -/
def withKeys (s : Store locked) : List (NamedToken × String) :=
  s.named.filterMap fun t => (s.valueKey? t).map fun v => (t, v)

/-- What the tokens of one group agree in. -/
def redundancyKey (m : NamedToken × String) : List String :=
  [m.1.name.propertyClass.id, m.1.name.intent.id, m.2]

theorem mem_withKeys_iff {k : String} : (n, k) ∈ s.withKeys ↔
    n ∈ s.named ∧ ∃ v, s.valueAt? n.path = some v ∧ v.key = k := by
  simp only [withKeys, valueKey?, List.mem_filterMap, Option.map_map, Option.map_eq_some_iff,
    Function.comp_apply, Prod.mk.injEq]
  constructor
  · rintro ⟨_, hn, v, hv, rfl, hk⟩
    exact ⟨hn, v, hv, hk⟩
  · rintro ⟨hn, v, hv, hk⟩
    exact ⟨n, hn, v, hv, rfl, hk⟩

theorem mem_redundantGroups_iff :
    paths ∈ (s.antiPatterns keywords threshold).redundantGroups ↔
      ∃ group ∈ Text.groupBy redundancyKey s.withKeys, 2 ≤ group.2.length ∧
        group.2.map (fun m => m.1.path) = paths := by
  rw [redundantGroups_antiPatterns]
  unfold redundancies PatternReport.redundantGroups
  dsimp only
  rw [List.filterMap_filterMap, List.mem_filterMap]
  refine exists_congr fun group => and_congr_right fun hgroup => ?_
  obtain ⟨m, _, hm⟩ := Text.exists_mem_of_mem_groupBy hgroup
  have hkey : redundancyKey m = group.1 := ((Text.mem_group_iff hgroup).mp hm).2
  rw [← hkey]
  dsimp only [redundancyKey]
  split
  · next hfew => simp [Nat.not_le.mpr hfew]
  · next hmany => simp [Nat.not_lt.mp hmany]

/-- A path of a group belongs to a readable token with a value, and the key of the group is made of
both. -/
theorem exists_of_mem_redundancyGroup {p : String}
    (h : group ∈ Text.groupBy redundancyKey s.withKeys) (hp : p ∈ group.2.map fun m => m.1.path) :
    ∃ n ∈ s.named, n.path = p ∧ ∃ v, s.valueAt? p = some v ∧
      redundancyKey (n, v.key) = group.1 := by
  obtain ⟨⟨n, k⟩, hmem, rfl⟩ := List.mem_map.mp hp
  obtain ⟨hmember, hkey⟩ := (Text.mem_group_iff h).mp hmem
  obtain ⟨hn, v, hv, rfl⟩ := mem_withKeys_iff.mp hmember
  exact ⟨n, hn, rfl, v, hv, hkey⟩

/-- The keys of two tokens are equal if the tokens agree in class, intent and the key of a value. -/
theorem redundancyKey_eq_iff (hn : n ∈ s.named) (hm : m ∈ s.named) {v w : Value} :
    redundancyKey (n, v.key) = redundancyKey (m, w.key) ↔
      n.name.propertyClass = m.name.propertyClass ∧ n.name.intent = m.name.intent ∧ v.Alike w := by
  have hclass : ∀ a b : PropertyClass, a.id = b.id ↔ a = b := by
    intro a b
    refine ⟨?_, fun h => h ▸ rfl⟩
    cases a <;> cases b <;> decide
  have hintent := (hasSpelling_of_mem_named hn).intent_id_eq_iff (hasSpelling_of_mem_named hm)
  simp only [redundancyKey, List.cons.injEq, and_true, hclass, hintent, Value.key_eq_iff]

/-- Two readable tokens are in one group exactly if they agree in class and intent and their values
are alike. -/
theorem exists_redundantGroup_iff (hn : n ∈ s.named) (hm : m ∈ s.named) (hne : n.path ≠ m.path) :
    (∃ g ∈ (s.antiPatterns keywords threshold).redundantGroups, n.path ∈ g ∧ m.path ∈ g) ↔
      n.name.propertyClass = m.name.propertyClass ∧ n.name.intent = m.name.intent ∧
        ∃ v w, s.valueAt? n.path = some v ∧ s.valueAt? m.path = some w ∧ v.Alike w := by
  constructor
  · rintro ⟨g, hg, hnp, hmp⟩
    obtain ⟨group, hgroup, _, rfl⟩ := mem_redundantGroups_iff.mp hg
    obtain ⟨n', hn', hpath, v, hv, hkey⟩ := exists_of_mem_redundancyGroup hgroup hnp
    obtain rfl := eq_of_named_path_eq hn' hn hpath
    obtain ⟨m', hm', hpath', w, hw, hkey'⟩ := exists_of_mem_redundancyGroup hgroup hmp
    obtain rfl := eq_of_named_path_eq hm' hm hpath'
    obtain ⟨hclass, hintent, halike⟩ := (redundancyKey_eq_iff hn hm).mp (hkey.trans hkey'.symm)
    exact ⟨hclass, hintent, v, w, hv, hw, halike⟩
  · rintro ⟨hclass, hintent, v, w, hv, hw, halike⟩
    have hkeys := (redundancyKey_eq_iff hn hm).mpr ⟨hclass, hintent, halike⟩
    have hnk := mem_withKeys_iff.mpr ⟨hn, v, hv, rfl⟩
    have hmk := mem_withKeys_iff.mpr ⟨hm, w, hw, rfl⟩
    obtain ⟨group, hgroup, hkey⟩ := Text.exists_group_of_mem hnk
    have hnmem := (Text.mem_group_iff hgroup).mpr ⟨hnk, hkey.symm⟩
    have hmmem := (Text.mem_group_iff hgroup).mpr ⟨hmk, hkeys.symm.trans hkey.symm⟩
    have hnp := List.mem_map_of_mem (f := fun m : NamedToken × String => m.1.path) hnmem
    have hmp := List.mem_map_of_mem (f := fun m : NamedToken × String => m.1.path) hmmem
    refine ⟨_, mem_redundantGroups_iff.mpr ⟨group, hgroup, ?_, rfl⟩, hnp, hmp⟩
    -- Two paths that differ are two members.
    have hpair : [(n, v.key), (m, w.key)].Nodup := by
      have hnm : n ≠ m := fun heq => hne (congrArg NamedToken.path heq)
      simp [hnm]
    have hsub : [(n, v.key), (m, w.key)] ⊆ group.2 := by simp [hnmem, hmmem]
    exact (List.subperm_of_subset hpair hsub).length_le

/-! ## The groups -/

/-- What some groups of paths have to do with the names and the values of a store. -/
structure GroupsAlike (s : Store locked) (groups : List (List String)) : Prop where
  once : groups.flatten.Nodup
  -- Only readable paths with a value are in a group.
  valued : ∀ g ∈ groups, ∀ p ∈ g, p ∈ s.paths ∧ (∃ r, Naming.read? p = some r) ∧
    ∃ v, s.valueAt? p = some v
  together_iff : ∀ p ∈ s.paths, ∀ q ∈ s.paths, p ≠ q → ∀ r r', Naming.read? p = some r →
    Naming.read? q = some r' → ((∃ g ∈ groups, p ∈ g ∧ q ∈ g) ↔
      r.name.propertyClass = r'.name.propertyClass ∧ r.name.intent = r'.name.intent ∧
        ∃ v w, s.valueAt? p = some v ∧ s.valueAt? q = some w ∧ v.Alike w)
  same_iff : ∀ g ∈ groups, ∀ p ∈ g, ∀ q ∈ g, ∀ v w, s.valueAt? p = some v →
    s.valueAt? q = some w → (v.Same w ↔ v.opacity? = w.opacity?)

/-- The values of two paths of one group are alike. -/
theorem alike_of_mem_redundantGroup {g : List String} {p q : String} {v w : Value}
    (hg : g ∈ (s.antiPatterns keywords threshold).redundantGroups) (hp : p ∈ g) (hq : q ∈ g)
    (hv : s.valueAt? p = some v) (hw : s.valueAt? q = some w) : v.Alike w := by
  obtain ⟨group, hgroup, _, rfl⟩ := mem_redundantGroups_iff.mp hg
  obtain ⟨n, hn, _, v', hv', hkey⟩ := exists_of_mem_redundancyGroup hgroup hp
  obtain ⟨m, hm, _, w', hw', hkey'⟩ := exists_of_mem_redundancyGroup hgroup hq
  obtain rfl := Option.some.inj (hv'.symm.trans hv)
  obtain rfl := Option.some.inj (hw'.symm.trans hw)
  exact ((redundancyKey_eq_iff hn hm).mp (hkey.trans hkey'.symm)).2.2

theorem groupsAlike_antiPatterns (s : Store locked) (keywords : List String) (threshold : Nat) :
    s.GroupsAlike (s.antiPatterns keywords threshold).redundantGroups where
  once := (s.flatten_redundantGroups keywords threshold).1
  valued := by
    intro g hg p hp
    obtain ⟨group, hgroup, _, rfl⟩ := mem_redundantGroups_iff.mp hg
    obtain ⟨n, hn, rfl, v, hv, _⟩ := exists_of_mem_redundancyGroup hgroup hp
    obtain ⟨hmem, r, hr, _⟩ := mem_named_iff.mp hn
    exact ⟨path_mem_paths hmem, ⟨r, hr⟩, v, hv⟩
  together_iff := by
    intro p hp q hq hne r r' hr hr'
    obtain ⟨t, ht, rfl⟩ := mem_paths.mp hp
    obtain ⟨u, hu, rfl⟩ := mem_paths.mp hq
    have hn := mem_named_iff (n := ⟨t, r.name, decide (r.strategy = .strict)⟩).mpr
      ⟨ht, r, hr, rfl, rfl⟩
    have hm := mem_named_iff (n := ⟨u, r'.name, decide (r'.strategy = .strict)⟩).mpr
      ⟨hu, r', hr', rfl, rfl⟩
    exact exists_redundantGroup_iff hn hm hne
  same_iff := fun g hg p hp q hq v w hv hw =>
    (alike_of_mem_redundantGroup hg hp hq hv hw).same_iff

end Store
end DesignTokens
