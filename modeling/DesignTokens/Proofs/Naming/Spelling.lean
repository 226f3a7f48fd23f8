import DesignTokens.Proofs.Naming.RoundTrip

/-!
# Which names a path can spell

Every name has a canonical path, but not every name can be read back from it.  What stands in the
way is the word of an intent of one's own: the path may cut it in pieces, the grammar may want
other characters, a context may leave no room for it, or another axis may claim it.  The names
without such a word, and those whose word is free of all this, are exactly the names that survive,
and they are also exactly the names that a path is ever read as.
-/

namespace DesignTokens

/-! ## The words of the vocabulary -/

namespace Vocabulary

variable {α : Type} {word : String}

/-- Every identifier and every alias, axis by axis. -/
def words : List String :=
  PropertyClass.all.map PropertyClass.id ++ UxContext.all.map UxContext.id ++
    Intent.catalog.map Intent.id ++ Emphasis.all.map Emphasis.id ++
    InteractionState.all.map InteractionState.id ++ classAliases.map Prod.fst ++
    intentAliases.map Prod.fst ++ contextAliases.map Prod.fst ++ stateAliases.map Prod.fst

/-- An identifier is found on its axis exactly if the axis lists it. -/
theorem isSome_find?_id {all : List α} {id : α → String} :
    (all.find? fun a => id a == word).isSome = true ↔ word ∈ all.map id := by
  simp [List.find?_isSome]

theorem isSome_lookup {aliases : List (String × α)} :
    (aliases.lookup word).isSome = true ↔ word ∈ aliases.map Prod.fst := by
  rw [List.lookup_isSome_iff, List.mem_map]
  refine exists_congr fun entry => and_congr_right fun _ => ?_
  rw [beq_iff_eq, eq_comm]

theorem isKnown_iff : isKnown word = true ↔ word ∈ words := by
  simp only [isKnown, words, Bool.or_eq_true, List.mem_append, PropertyClass.ofId?,
    UxContext.ofId?, Intent.ofId?, Emphasis.ofId?, InteractionState.ofId?, classAlias?,
    intentAlias?, contextAlias?, stateAlias?, isSome_find?_id, isSome_lookup]

end Vocabulary

namespace Naming

variable {n : Name} {word : String}

/-! ## Words of one's own -/

/-- A word that can stand for itself in a path: some small ASCII letters and digits that are
neither an identifier nor an alias of any axis. -/
structure IsOwnWord (word : String) : Prop where
  ne_empty : word ≠ ""
  plain : ∀ ch ∈ word.toList, ('a' ≤ ch ∧ ch ≤ 'z') ∨ ('0' ≤ ch ∧ ch ≤ '9')
  unknown : word ∉ Vocabulary.words

theorem isOwnWord_iff :
    IsOwnWord word ↔ isPlainWord word = true ∧ Vocabulary.isKnown word = false ∧ word ≠ "" := by
  have hplain : isPlainWord word = true ↔
      ∀ ch ∈ word.toList, ('a' ≤ ch ∧ ch ≤ 'z') ∨ ('0' ≤ ch ∧ ch ≤ '9') := by
    simp [isPlainWord]
  have hunknown : Vocabulary.isKnown word = false ↔ word ∉ Vocabulary.words := by
    rw [← Vocabulary.isKnown_iff, Bool.not_eq_true]
  rw [hplain, hunknown]
  constructor
  · intro h
    exact ⟨h.plain, h.unknown, h.ne_empty⟩
  · intro h
    rcases h with ⟨hchars, hnew, hne⟩
    exact ⟨hne, hchars, hnew⟩

/-- The intent is one of the catalogue, or there is no context and it is a word of one's own. -/
def HasSpelling (n : Name) : Prop :=
  n.intent ∈ Intent.catalog ∨
    ∃ word, n.intent = .custom word ∧ n.context = none ∧ IsOwnWord word

theorem hasSpelling_iff : HasSpelling n ↔ IsSpellable n := by
  unfold HasSpelling IsSpellable
  cases hintent : n.intent with
  | custom word => simp [Intent.catalog, isOwnWord_iff]
  | _ => simp [Intent.catalog]

/-- Intents of names that have a spelling are told apart by their identifiers: a word of one's own
is no identifier of the catalogue. -/
theorem HasSpelling.intent_id_eq_iff {m : Name} (hn : HasSpelling n) (hm : HasSpelling m) :
    n.intent.id = m.intent.id ↔ n.intent = m.intent := by
  have hcatalog : ∀ i ∈ Intent.catalog, ∀ j ∈ Intent.catalog, i.id = j.id → i = j := by decide
  have hknown : ∀ i ∈ Intent.catalog, i.id ∈ Vocabulary.words := by decide +kernel
  refine ⟨fun h => ?_, congrArg Intent.id⟩
  rcases hn with hi | ⟨word, hi, _, hown⟩ <;> rcases hm with hj | ⟨word', hj, _, hown'⟩
  · exact hcatalog _ hi _ hj h
  · have hword : n.intent.id = word' := by rw [h, hj, Intent.id]
    exact absurd (hword ▸ hknown _ hi) hown'.unknown
  · have hword : m.intent.id = word := by rw [← h, hi, Intent.id]
    exact absurd (hword ▸ hknown _ hj) hown.unknown
  · rw [hi, hj] at h ⊢
    exact congrArg Intent.custom h

/-! ## Reading back -/

/-- A name is read back from its canonical path exactly if it has a spelling. -/
theorem strict?_path_iff : strict? n.path = some n.normalized ↔ HasSpelling n := by
  rw [hasSpelling_iff]
  constructor
  · intro h
    -- The name that was read has the intent and the context of the one that was written.
    have hread : IsSpellable n.normalized := isSpellable_of_strict? h
    exact hread
  · exact strict?_path

/-- A canonical path that is read back is canonical, and it is rebuilt as it was. -/
theorem isCanonical_path (h : strict? n.path = some n.normalized) :
    isCanonical n.path = true ∧ (strict? n.path).map Name.path = some n.path := by
  simp [isCanonical, h, path_normalized]

/-- A name survives being written as a path exactly if it has a spelling.  Every name that is read
from a path has one, so its canonical path is canonical and is rebuilt as it was. -/
theorem round_trip_exactly :
    (∀ n : Name, strict? n.path = some n.normalized ↔ HasSpelling n) ∧
      ∀ (path : String) (n : Name), strict? path = some n →
        HasSpelling n ∧ isCanonical n.path = true ∧
          (strict? n.path).map Name.path = some n.path := by
  refine ⟨fun n => strict?_path_iff, fun path n h => ?_⟩
  have hspelling : HasSpelling n := hasSpelling_iff.mpr (isSpellable_of_strict? h)
  exact ⟨hspelling, isCanonical_path (strict?_path_iff.mpr hspelling)⟩

/-- A path with another separator and the default state spelled out, whose intent is a word of its
own. -/
theorem round_trip_exactly_brandish :
    ∃ n, strict? "spacing-inline/brandish2-default" = some n ∧ n.intent = .custom "brandish2" ∧
      HasSpelling n ∧ isCanonical n.path = true ∧
        (strict? n.path).map Name.path = some n.path := by
  let n : Name :=
    { propertyClass := .spacingInline, intent := .custom "brandish2", modifier := some .normal }
  have hread : strict? "spacing-inline/brandish2-default" = some n := by decide
  exact ⟨n, hread, rfl, round_trip_exactly.2 _ n hread⟩

end Naming
end DesignTokens
