import DesignTokens.Naming.Grading
import DesignTokens.Proofs.Naming.Spelling

/-!
# What a lenient reading leads to

A path is readable at all exactly if a property class is spelled somewhere in it.  However the
reading came about, its name has a spelling: a strict reading and one that keeps the strict grammar
take words of one's own only where the grammar allows them, and the scan takes none.  So the path
that is suggested is always canonical and read as the very name that suggested it.
-/

namespace DesignTokens
namespace Naming

variable {segs : List String} {path word next : String} {i : Nat}

/-! ## Where a class is spelled -/

/-- An identifier or an alias of a property class. -/
def NamesClass (word : String) : Prop :=
  ∃ c : PropertyClass, c.id = word ∨ (word, c) ∈ Vocabulary.classAliases

/-- The segment at a position, by itself or joined to the one after it, names a class. -/
def ClassAt (segs : List String) (i : Nat) : Prop :=
  (∃ word, segs[i]? = some word ∧ NamesClass word) ∨
    ∃ word next, segs[i]? = some word ∧ segs[i + 1]? = some next ∧ NamesClass (compound word next)

theorem namesClass_iff : NamesClass word ↔
    (PropertyClass.ofId? word).isSome = true ∨ (Vocabulary.classAlias? word).isSome = true := by
  have hall : ∀ c : PropertyClass, c ∈ PropertyClass.all := by
    intro c
    cases c <;> decide
  rw [PropertyClass.ofId?, Vocabulary.classAlias?, Vocabulary.isSome_find?_id,
    Vocabulary.isSome_lookup]
  simp [NamesClass, exists_or, hall]

/-- Looking at the head finds a class exactly if one is spelled there. -/
theorem isSome_hitAhead? : (hitAhead? segs).isSome = true ↔ ClassAt segs 0 := by
  cases segs with
  | nil => simp [hitAhead?, classAhead?, aliasAhead?, ClassAt]
  | cons word rest =>
    cases rest with
    | nil =>
      cases hid : PropertyClass.ofId? word <;> cases halias : Vocabulary.classAlias? word <;>
        simp [hitAhead?, classAhead?, aliasAhead?, ClassAt, namesClass_iff, hid, halias]
    | cons next rest =>
      -- The compound goes first, but any of the four look-ups is enough.
      cases hid : PropertyClass.ofId? (compound word next) <;>
        cases hid' : PropertyClass.ofId? word <;>
          cases halias : Vocabulary.classAlias? (compound word next) <;>
            cases halias' : Vocabulary.classAlias? word <;>
              simp [hitAhead?, classAhead?, aliasAhead?, ClassAt, namesClass_iff, hid, hid',
                halias, halias']

/-- The scan comes back empty exactly if no position spells a class. -/
theorem firstHit?_eq_none_iff : firstHit? segs = none ↔ ∀ i, ¬ ClassAt segs i := by
  induction segs with
  | nil => simp [firstHit?, ClassAt]
  | cons word rest ih =>
    have hlater : ∀ i, ClassAt (word :: rest) (i + 1) ↔ ClassAt rest i := fun i => Iff.rfl
    have hhead : (hitAhead? (word :: rest)).isSome = true ↔ ClassAt (word :: rest) 0 :=
      isSome_hitAhead?
    unfold firstHit?
    cases hhit : hitAhead? (word :: rest) with
    | some hit =>
      rw [hhit] at hhead
      refine iff_of_false (by simp) fun hnone => ?_
      exact hnone 0 (hhead.mp rfl)
    | none =>
      rw [hhit] at hhead
      have hnot : ¬ ClassAt (word :: rest) 0 := fun hclass => by simpa using hhead.mpr hclass
      simp only [Option.map_eq_none_iff, ih]
      constructor
      · intro hnone i
        cases i with
        | zero => exact hnot
        | succ i => exact fun hclass => hnone i ((hlater i).mp hclass)
      · intro hnone i hclass
        exact hnone (i + 1) ((hlater i).mpr hclass)

/-! ## Small letters -/

theorem lower_compound (word next : String) :
    Text.lower (compound word next) = compound (Text.lower word) (Text.lower next) := by
  have hhyphen : Char.toLower '-' = '-' := by decide
  refine String.toList_injective ?_
  simp [Text.toList_lower, compound, hhyphen]

theorem lower_id (c : PropertyClass) : Text.lower c.id = c.id := by
  cases c <;> decide

theorem lower_ne_empty (h : word ≠ "") : Text.lower word ≠ "" := by
  intro hempty
  refine h (String.toList_injective ?_)
  simpa [Text.toList_lower] using congrArg String.toList hempty

/-- A path that is read strictly spells its class by an identifier, in small letters already. -/
theorem classAt_of_strict? {n : Name} (h : strict? path = some n) :
    ClassAt ((segments path).map Text.lower) 0 := by
  have hnamed : ∀ {word : String} {c : PropertyClass}, PropertyClass.ofId? word = some c →
      NamesClass (Text.lower word) := by
    intro word c hid
    have hword : c.id = word := by simpa using List.find?_some hid
    exact ⟨c, .inl (by rw [← hword, lower_id])⟩
  unfold strict? nameOfSegments? classAhead? at h
  split at h
  · next c tail hclass =>
    split at hclass
    · cases hclass
    · next word hsegs =>
      rcases Option.map_eq_some_iff.mp hclass with ⟨c', hid, _⟩
      rw [hsegs]
      exact .inl ⟨Text.lower word, rfl, hnamed hid⟩
    · next word next rest hsegs =>
      rw [hsegs]
      split at hclass
      · next c' hid =>
        refine .inr ⟨Text.lower word, Text.lower next, rfl, rfl, ?_⟩
        rw [← lower_compound]
        exact hnamed hid
      · rcases Option.map_eq_some_iff.mp hclass with ⟨c', hid, _⟩
        exact .inl ⟨Text.lower word, rfl, hnamed hid⟩
  · cases h

/-- A path cannot be read exactly if none of its segments, in small letters, spells a class. -/
theorem read?_eq_none_iff :
    read? path = none ↔ ∀ i, ¬ ClassAt ((segments path).map Text.lower) i := by
  unfold read?
  cases hstrict : strict? path with
  | some n =>
    refine iff_of_false (by simp) fun hnone => ?_
    exact hnone 0 (classAt_of_strict? hstrict)
  | none =>
    rw [← firstHit?_eq_none_iff]
    generalize (segments path).map Text.lower = segs
    have hscan : readScan? segs = none ↔ firstHit? segs = none := by
      unfold readScan?
      split <;> simp_all
    -- The reading of the first segment starts from a class that the scan would find too.
    cases hfirst : readFirstSegment? segs with
    | none => simpa only [hfirst] using hscan
    | some r =>
      simp only [hfirst]
      refine iff_of_false (by simp) fun hnone => ?_
      have hhead : (hitAhead? segs).isSome = true := by
        unfold readFirstSegment? at hfirst
        split at hfirst
        · cases hfirst
        · next hit hhit => rw [hhit]; rfl
      exact firstHit?_eq_none_iff.mp hnone 0 (isSome_hitAhead?.mp hhead)

/-! ## The names of readings -/

theorem suffix_of_aliasAhead? {hit : ClassHit} (h : aliasAhead? segs = some hit) :
    hit.rest <:+ segs := by
  unfold aliasAhead? at h
  split at h
  · cases h
  · rcases Option.map_eq_some_iff.mp h with ⟨_, _, rfl⟩
    exact List.nil_suffix
  · split at h
    · cases h
      exact (List.suffix_cons _ _).trans (List.suffix_cons _ _)
    · rcases Option.map_eq_some_iff.mp h with ⟨_, _, rfl⟩
      exact List.suffix_cons _ _

theorem suffix_of_hitAhead? {hit : ClassHit} (h : hitAhead? segs = some hit) :
    hit.rest <:+ segs := by
  unfold hitAhead? at h
  split at h
  · next c rest hclass =>
    cases h
    exact suffix_of_classAhead? hclass
  · exact suffix_of_aliasAhead? h

/-- The intent that a scan has found so far, if any, is one of the catalogue. -/
def Tail.HasCatalogIntent (t : Tail) : Prop := ∀ i, t.intent = some i → i ∈ Intent.catalog

theorem mem_catalog_of_intentAlias? {intent : Intent}
    (h : Vocabulary.intentAlias? word = some intent) : intent ∈ Intent.catalog := by
  have hall : ∀ entry ∈ Vocabulary.intentAliases, entry.2 ∈ Intent.catalog := by decide
  obtain ⟨before, after, htable, _⟩ := List.lookup_eq_some_iff.mp h
  exact hall (word, intent) (by rw [htable]; simp)

namespace Tail

variable {t : Tail}

/-- One more segment adds no intent of one's own. -/
theorem HasCatalogIntent.read (h : t.HasCatalogIntent) (word : String) :
    (t.read word).HasCatalogIntent := by
  unfold Tail.read
  split
  · exact h
  · split
    · next found aliased hoffer =>
      intro intent hintent
      cases hintent
      unfold offer? at hoffer
      split at hoffer
      · cases hoffer
      · split at hoffer
        · next hid =>
          cases hoffer
          exact List.mem_of_find?_eq_some hid
        · rcases Option.map_eq_some_iff.mp hoffer with ⟨_, halias, hpair⟩
          cases hpair
          exact mem_catalog_of_intentAlias? halias
    · split
      · exact h
      · split <;> exact h

theorem HasCatalogIntent.foldl (h : t.HasCatalogIntent) (segs : List String) :
    (segs.foldl Tail.read t).HasCatalogIntent := by
  induction segs generalizing t with
  | nil => exact h
  | cons word segs ih => exact ih (h.read word)

theorem HasCatalogIntent.contextAndIntent (h : t.HasCatalogIntent) :
    t.contextAndIntent.2 ∈ Intent.catalog := by
  unfold Tail.contextAndIntent
  split
  · next intent hintent => exact h intent hintent
  · split
    · next intent halias =>
      rcases Option.bind_eq_some_iff.mp halias with ⟨c, _, hword⟩
      exact mem_catalog_of_intentAlias? hword
    · exact (by decide : Intent.base ∈ Intent.catalog)

end Tail

/-- Whatever a path is read as has a spelling. -/
theorem hasSpelling_of_read? {r : Reading} (h : read? path = some r) : HasSpelling r.name := by
  unfold read? at h
  split at h
  · next n hstrict =>
    cases h
    exact hasSpelling_iff.mpr (isSpellable_of_strict? hstrict)
  · dsimp only at h
    split at h
    · next r' hfirst =>
      cases h
      unfold readFirstSegment? at hfirst
      split at hfirst
      · cases hfirst
      · next hit hhit =>
        rcases Option.map_eq_some_iff.mp hfirst with ⟨n, hn, rfl⟩
        refine hasSpelling_iff.mpr (isSpellable_of_nameOfTail? (fun word hword => ?_) hn)
        rcases List.mem_map.mp ((suffix_of_hitAhead? hhit).subset hword) with ⟨seg, hseg, rfl⟩
        exact lower_ne_empty (ne_empty_of_mem_segments hseg)
    · unfold readScan? at h
      split at h
      · cases h
      · next skipped hit _ =>
        cases h
        have hstart : Tail.HasCatalogIntent { aliases := hit.aliases } := by
          intro intent hintent
          cases hintent
        exact .inl (hstart.foldl hit.rest).contextAndIntent

/-- With a sound grading every path has a graded reading or none.  It has none exactly if no
segment of the path in small letters, by itself or joined to the next, is an identifier or an alias
of a property class; and the path that a reading suggests is canonical and read as the name of the
reading. -/
theorem lenient_lands_on_canonical {α : Type} [Scalar α] {g : Grading α} (hsound : g.isSound = true)
    (path : String) :
    g.refuses path = false ∧
      (read? path = none ↔ ∀ i, ¬ ClassAt ((segments path).map Text.lower) i) ∧
      ∀ r, read? path = some r → ∃ suggested, suggestedPath? path = some suggested ∧
        strict? suggested = some r.name.normalized ∧ isCanonical suggested = true := by
  refine ⟨by simp [Grading.refuses, hsound], read?_eq_none_iff, fun r hr => ?_⟩
  have hback : strict? r.name.path = some r.name.normalized :=
    strict?_path_iff.mpr (hasSpelling_of_read? hr)
  exact ⟨r.name.path, by simp [suggestedPath?, hr], hback, (isCanonical_path hback).1⟩

/-- A path with capitals, a prefix, an alias of two segments, a word that no axis knows and an alias
of a state: the word is left out and the intent falls back to the base one. -/
theorem lenient_lands_on_canonical_focusRing :
    (Grading.standard : Grading Rat).isSound = true ∧
      ∃ r suggested, read? "Acme/FOCUS-ring.Brandish-Hovered" = some r ∧
        suggestedPath? "Acme/FOCUS-ring.Brandish-Hovered" = some suggested ∧
        suggested = "outline.base.hover" ∧ strict? suggested = some r.name.normalized ∧
        isCanonical suggested = true := by
  have hsound : (Grading.standard : Grading Rat).isSound = true := by decide +kernel
  rcases lenient_lands_on_canonical hsound "Acme/FOCUS-ring.Brandish-Hovered" with ⟨_, _, hread⟩
  have hsuggested :
      suggestedPath? "Acme/FOCUS-ring.Brandish-Hovered" = some "outline.base.hover" := by decide
  rcases Option.map_eq_some_iff.mp hsuggested with ⟨r, hr, hpath⟩
  rcases hread r hr with ⟨suggested, hsome, hback, hcanonical⟩
  have hsame : suggested = "outline.base.hover" := by
    rw [hsuggested] at hsome
    exact (Option.some.inj hsome).symm
  exact ⟨hsound, r, suggested, hr, hsome, hsame, hback, hcanonical⟩

end Naming
end DesignTokens
