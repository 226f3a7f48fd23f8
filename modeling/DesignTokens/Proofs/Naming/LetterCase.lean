import DesignTokens.Proofs.Naming.Grammar
import DesignTokens.Proofs.Naming.Lenient

/-!
# Letter case in a reading

The strict reading is the only one that tells capitals from small letters, and a path that it
accepts has no capitals.  So the name that a path is read as depends only on its segments in small
letters: a path and its form in small letters are read as the same name, although not always in the
same way.
-/

namespace DesignTokens

/-! ## Small letters -/

namespace Text

theorem toLower_of_plain {c : Char} (h : ('a' ≤ c ∧ c ≤ 'z') ∨ ('0' ≤ c ∧ c ≤ '9')) :
    c.toLower = c := by
  simp only [Char.le_def, UInt32.le_iff_toNat_le, Char.reduceVal, UInt32.reduceToNat] at h
  have hcode : c.val.toNat = c.toNat := rfl
  exact toLower_of_not_capital (by omega)

theorem toLower_toLower (c : Char) : c.toLower.toLower = c.toLower := by
  have hascii : ∀ c : Char, c.toNat < 128 → c.toLower.toLower = c.toLower :=
    forall_ascii (by decide)
  rcases Nat.lt_or_ge c.toNat 128 with hlt | hge
  · exact hascii c hlt
  · rw [toLower_of_not_ascii hge, toLower_of_not_ascii hge]

theorem lower_lower (s : String) : lower (lower s) = lower s := by
  refine String.toList_injective ?_
  rw [toList_lower, toList_lower, List.map_map]
  exact List.map_congr_left fun c _ => toLower_toLower c

end Text

namespace Naming

variable {n : Name} {segs : List String}

/-! ## Segments in small letters -/

theorem isSeparator_toLower (c : Char) : isSeparator c.toLower = isSeparator c := by
  have hascii : ∀ c : Char, c.toNat < 128 → isSeparator c.toLower = isSeparator c :=
    Text.forall_ascii (by decide)
  rcases Nat.lt_or_ge c.toNat 128 with hlt | hge
  · exact hascii c hlt
  · rw [Text.toLower_of_not_ascii hge]

/-- A change of characters that leaves the separators alone can be made before or after a list is
cut. -/
theorem splitOnP_map {α : Type} {f : α → α} {p : α → Bool} (h : ∀ a, p (f a) = p a)
    (l : List α) : (l.map f).splitOnP p = (l.splitOnP p).map (List.map f) := by
  induction l with
  | nil => simp
  | cons a l ih =>
    rw [List.map_cons, List.splitOnP_cons_eq_if_modifyHead, List.splitOnP_cons_eq_if_modifyHead,
      h, ih]
    split
    · rfl
    · cases l.splitOnP p <;> rfl

theorem segments_lower (path : String) :
    segments (Text.lower path) = (segments path).map Text.lower := by
  unfold segments Text.wordsBy
  rw [Text.toList_lower, splitOnP_map isSeparator_toLower, List.filter_map, List.map_map,
    List.map_map]
  have hempty : (fun w : List Char => !w.isEmpty) ∘ List.map Char.toLower =
      fun w => !w.isEmpty := by
    funext w
    cases w <;> rfl
  rw [hempty]
  refine List.map_congr_left fun w _ => String.toList_injective ?_
  simp [Text.toList_lower]

/-- What spells a name is in small letters already. -/
theorem Spells.map_lower (h : Spells segs n) : segs.map Text.lower = segs := by
  have hclass : ∀ c : PropertyClass, (segments c.id).map Text.lower = segments c.id := by
    intro c
    rw [← segments_lower, lower_id]
  have hcontext : ∀ x : UxContext, Text.lower x.id = x.id := by
    intro x
    cases x <;> decide
  have hmodifier : ∀ m : Emphasis, Text.lower m.id = m.id := by
    intro m
    cases m <;> decide
  have hstate : ∀ s : InteractionState, Text.lower s.id = s.id := by
    intro s
    cases s <;> decide
  have hintent : Text.lower n.intent.id = n.intent.id := by
    rcases h.hasSpelling with hcatalog | ⟨word, hword, _, hown⟩
    · have hall : ∀ i ∈ Intent.catalog, Text.lower i.id = i.id := by decide
      exact hall _ hcatalog
    · have hsame : word.toList.map Char.toLower = word.toList.map id :=
        List.map_congr_left fun ch hch => Text.toLower_of_plain (hown.plain ch hch)
      rw [hword]
      refine String.toList_injective ?_
      rw [Text.toList_lower]
      exact hsame.trans (List.map_id _)
  have haxis : ∀ {α : Type} (id : α → String), (∀ a, Text.lower (id a) = id a) →
      ∀ o : Option α, (o.map id).toList.map Text.lower = (o.map id).toList := by
    intro α id hid o
    cases o <;> simp [hid]
  rw [h.segments_eq, List.map_append, hclass, spelledTail]
  simp [hintent, haxis _ hcontext, haxis _ hmodifier, haxis _ hstate]

/-! ## The name alone -/

/-- Segments that spell a name are read as that name too when the class may be an alias. -/
theorem readFirstSegment?_of_nameOfSegments? (h : nameOfSegments? segs = some n) :
    ∃ r, readFirstSegment? segs = some r ∧ r.name = n := by
  unfold nameOfSegments? at h
  split at h
  · next c tail hclass =>
    refine ⟨⟨n, .firstSegment, ClassHit.aliases ⟨c, none, tail⟩, [], []⟩, ?_, rfl⟩
    simp [readFirstSegment?, hitAhead?, hclass, h]
  · cases h

/-- The name that a lenient reading finds in some segments in small letters. -/
def nameInSmallLetters? (segs : List String) : Option Name :=
  match readFirstSegment? segs with
  | some r => some r.name
  | none => (readScan? segs).map Reading.name

/-- The name of a reading depends on the segments in small letters only. -/
theorem map_name_read? (path : String) :
    (read? path).map Reading.name = nameInSmallLetters? ((segments path).map Text.lower) := by
  unfold read? nameInSmallLetters?
  cases hstrict : strict? path with
  | some n =>
    -- A path that is read strictly has no capitals, and the next reading agrees with it.
    have hsame : (segments path).map Text.lower = segments path :=
      (spells_of_strict? hstrict).map_lower
    obtain ⟨r, hr, hname⟩ := readFirstSegment?_of_nameOfSegments? hstrict
    simp [hsame, hr, hname]
  | none =>
    dsimp only
    cases readFirstSegment? ((segments path).map Text.lower) <;> rfl

theorem map_name_read?_lower (path : String) :
    (read? (Text.lower path)).map Reading.name = (read? path).map Reading.name := by
  have hsame : (segments (Text.lower path)).map Text.lower = (segments path).map Text.lower := by
    rw [segments_lower, List.map_map]
    exact List.map_congr_left fun word _ => Text.lower_lower word
  rw [map_name_read?, map_name_read?, hsame]

/-- With a sound grading a path and its form in small letters are both read, as the same name and
with the same suggested path, or both not. -/
theorem reading_ignores_case {α : Type} [Scalar α] {g : Grading α} (hsound : g.isSound = true)
    (path : String) :
    g.refuses path = false ∧ g.refuses (Text.lower path) = false ∧
      (read? (Text.lower path)).map Reading.name = (read? path).map Reading.name ∧
        suggestedPath? (Text.lower path) = suggestedPath? path := by
  have hname := map_name_read?_lower path
  refine ⟨by simp [Grading.refuses, hsound], by simp [Grading.refuses, hsound], hname, ?_⟩
  simpa [suggestedPath?, Function.comp_def] using congrArg (Option.map Name.path) hname

/-- A word of one's own in capitals: the path itself is not read strictly, its form in small letters
is. -/
theorem reading_ignores_case_capitals :
    (Grading.standard : Grading Rat).isSound = true ∧
      (read? "Background.BRANDISH/Hover").map Reading.strategy = some .firstSegment ∧
      (read? "background.brandish/hover").map Reading.strategy = some .strict ∧
      suggestedPath? "Background.BRANDISH/Hover" = suggestedPath? "background.brandish/hover" ∧
      suggestedPath? "background.brandish/hover" = some "background.brandish.hover" := by
  have hsound : (Grading.standard : Grading Rat).isSound = true := by decide +kernel
  have hlower : Text.lower "Background.BRANDISH/Hover" = "background.brandish/hover" := by decide
  obtain ⟨_, _, _, hsame⟩ := reading_ignores_case hsound "Background.BRANDISH/Hover"
  rw [hlower] at hsame
  exact ⟨hsound, by decide, by decide, hsame.symm, by decide⟩

end Naming
end DesignTokens
