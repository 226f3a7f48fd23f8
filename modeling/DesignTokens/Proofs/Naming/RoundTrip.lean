import DesignTokens.Naming.Strict

/-!
# Reading back a canonical path

The canonical path of a name is cut back into the identifiers that it was made of, and the strict
reading gives each identifier to the axis that it came from.  So the path of a name that was read
strictly is read as the same name, with the default modifier and the default state left out, and
it is the canonical path of that name too.

What could go wrong is that an identifier fits an earlier axis.  The axes share only the word for
the default modifier and the default state, which a canonical path never spells out, and a word of
one's own is accepted only if no axis knows it.
-/

namespace DesignTokens
namespace Naming

variable {n : Name} {c : PropertyClass} {path word : String} {tail : List String}

/-! ## Segments of a joined path -/

theorem segments_append (a b : String) : segments (a ++ "." ++ b) = segments a ++ segments b := by
  have hcut : isSeparator '.' = true := by decide
  have hchars : (a ++ "." ++ b).toList = a.toList ++ '.' :: b.toList := by simp
  unfold segments Text.wordsBy
  rw [hchars, List.splitOnP_append_cons _ _ hcut, List.filter_append, List.map_append]

theorem segments_intercalate (parts : List String) :
    segments (".".intercalate parts) = parts.flatMap segments := by
  induction parts with
  | nil => rfl
  | cons a parts ih =>
    cases parts with
    | nil => simp
    | cons b parts =>
      rw [String.intercalate_cons_cons, segments_append, ih]
      exact List.flatMap_cons.symm

/-- A segment is not empty. -/
theorem ne_empty_of_mem_segments (h : word ∈ segments path) : word ≠ "" := by
  rcases List.mem_map.mp h with ⟨cs, hcs, rfl⟩
  -- Empty words were dropped when the path was cut.
  have hne : cs ≠ [] := by simpa using (List.mem_filter.mp hcs).2
  intro hempty
  exact hne (by simpa using congrArg String.toList hempty)

theorem isSeparator_of_plain {ch : Char}
    (h : (('a' ≤ ch && ch ≤ 'z') || ('0' ≤ ch && ch ≤ '9')) = true) : isSeparator ch = false := by
  refine Bool.eq_false_iff.mpr fun hsep => ?_
  simp only [isSeparator, Bool.or_eq_true, beq_iff_eq] at hsep
  rcases hsep with (rfl | rfl) | rfl <;> exact absurd h (by decide)

theorem segments_of_plain (hplain : isPlainWord word = true) (hne : word ≠ "") :
    segments word = [word] := by
  have hcut : ∀ ch ∈ word.toList, isSeparator ch = false := fun ch hch =>
    isSeparator_of_plain (List.all_eq_true.mp hplain ch hch)
  have hnil : word.toList ≠ [] := fun hnil => hne (String.toList_injective (by simpa using hnil))
  unfold segments Text.wordsBy
  rw [List.splitOnP_eq_singleton hcut]
  simp [hnil]

/-! ## Names that a path can spell -/

/-- A word that no axis knows is in particular no context and no intent with a name. -/
theorem ofId?_of_not_isKnown (h : Vocabulary.isKnown word = false) :
    UxContext.ofId? word = none ∧ Intent.ofId? word = none := by
  simp only [Vocabulary.isKnown, Bool.or_eq_false_iff, Option.isSome_eq_false_iff,
    Option.isNone_iff_eq_none] at h
  rcases h with ⟨⟨⟨⟨⟨⟨⟨⟨_, hcontext⟩, hintent⟩, _⟩, _⟩, _⟩, _⟩, _⟩, _⟩
  exact ⟨hcontext, hintent⟩

/-- A word of one's own is an intent only without a context, and only if it is a plain word that
no axis knows. -/
def IsSpellable (n : Name) : Prop :=
  ∀ word, n.intent = .custom word →
    n.context = none ∧ isPlainWord word = true ∧ Vocabulary.isKnown word = false ∧ word ≠ ""

theorem segments_context (x : UxContext) : segments x.id = [x.id] := by
  cases x <;> rfl

theorem segments_modifier (m : Emphasis) : segments m.id = [m.id] := by
  cases m <;> rfl

theorem segments_state (s : InteractionState) : segments s.id = [s.id] := by
  cases s <;> rfl

theorem IsSpellable.segments_intent (h : IsSpellable n) : segments n.intent.id = [n.intent.id] := by
  cases hi : n.intent with
  | custom word =>
    rcases h word hi with ⟨_, hplain, _, hne⟩
    exact segments_of_plain hplain hne
  | _ => rfl

/-- The identifiers of a canonical path after the property class. -/
def tailSegments (n : Name) : List String :=
  (n.context.map UxContext.id).toList ++ (n.intent.id ::
    ((n.normalized.modifier.map Emphasis.id).toList ++
      ((n.normalized.state.map InteractionState.id).toList ++ [])))

theorem IsSpellable.segments_path (h : IsSpellable n) :
    segments n.path = segments n.propertyClass.id ++ tailSegments n := by
  -- An axis that may be empty contributes its identifier or nothing.
  have hopt : ∀ {α : Type} (id : α → String), (∀ a, segments (id a) = [id a]) →
      ∀ o : Option α, (o.map id).toList.flatMap segments = (o.map id).toList := by
    intro α id hid o
    cases o with
    | none => rfl
    | some a => simp [hid]
  unfold Name.path Name.segments tailSegments
  rw [segments_intercalate]
  simp only [List.flatMap_append, List.flatMap_cons, List.append_nil,
    List.nil_append, List.cons_append, List.append_assoc, hopt _ segments_context,
    hopt _ segments_modifier, hopt _ segments_state, h.segments_intent]

/-! ## The property class -/

/-- A compound shows its first part up to the first hyphen. -/
theorem takeWhile_compound {a b w : String} (ha : '-' ∉ a.toList) (h : w = compound a b) :
    '-' ∈ w.toList ∧ w.toList.takeWhile (fun ch => ch != '-') = a.toList := by
  have hchars : w.toList = a.toList ++ '-' :: b.toList := by simp [h, compound]
  refine ⟨by simp [hchars], ?_⟩
  rw [hchars, List.takeWhile_append_of_pos]
  · simp
  · intro ch hch
    simpa using fun heq : ch = '-' => ha (heq ▸ hch)

/-- A class of one segment forms no identifier with the segment after it. -/
theorem ofId?_compound_eq_none (hc : '-' ∉ c.id.toList) (next : String) :
    PropertyClass.ofId? (compound c.id next) = none := by
  -- No class with a hyphen starts with the identifier of a class without one.
  have hids : ∀ c c' : PropertyClass, '-' ∉ c.id.toList → '-' ∈ c'.id.toList →
      c'.id.toList.takeWhile (fun ch => ch != '-') ≠ c.id.toList := by
    intro c c'
    cases c' <;> cases c <;> decide
  refine List.find?_eq_none.mpr fun c' _ hid => ?_
  obtain ⟨hhyphen, hhead⟩ := takeWhile_compound hc (by simpa using hid)
  exact hids c c' hc hhyphen hhead

theorem classAhead?_segments_append (c : PropertyClass) (word : String) (tail : List String) :
    classAhead? (segments c.id ++ word :: tail) = some (c, word :: tail) := by
  -- The two classes with a hyphen are cut into two segments and joined again when read.
  have hsingle : ∀ c : PropertyClass, '-' ∉ c.id.toList → segments c.id = [c.id] →
      PropertyClass.ofId? c.id = some c →
      classAhead? (segments c.id ++ word :: tail) = some (c, word :: tail) := by
    intro c hc hsegments hid
    simp [hsegments, classAhead?, ofId?_compound_eq_none hc, hid]
  cases c with
  | spacingInline => rfl
  | spacingBlock => rfl
  | _ => exact hsingle _ (by decide) rfl rfl

/-! ## The other axes -/

/-- An identifier at the head goes to its axis; without one the axis stays empty. -/
theorem takeId_append {α : Type} {ofId? : String → Option α} {id : α → String} {o : Option α}
    {rest : List String} (hid : ∀ a, o = some a → ofId? (id a) = some a)
    (hrest : o = none → ∀ word, rest.head? = some word → ofId? word = none) :
    takeId ofId? ((o.map id).toList ++ rest) = (o, rest) := by
  cases o with
  | some a => simp [takeId, hid a rfl]
  | none =>
    cases rest with
    | nil => rfl
    | cons word rest => simp [takeId, hrest rfl word rfl]

theorem IsSpellable.not_context (h : IsSpellable n) : UxContext.ofId? n.intent.id = none := by
  cases hi : n.intent with
  | custom word =>
    rcases h word hi with ⟨_, _, hunknown, _⟩
    exact (ofId?_of_not_isKnown hunknown).1
  | _ => rfl

theorem IsSpellable.intentOf? (h : IsSpellable n) :
    intentOf? n.context n.intent.id = some n.intent := by
  cases hi : n.intent with
  | custom word =>
    rcases h word hi with ⟨hcontext, hplain, hunknown, _⟩
    have hcatalog := (ofId?_of_not_isKnown hunknown).2
    simp [Naming.intentOf?, Intent.id, hcatalog, hcontext, hplain, hunknown]
  | _ => rfl

/-- The segments after the property class when every axis that has a value is spelled out. -/
def spelledTail (n : Name) : List String :=
  (n.context.map UxContext.id).toList ++ n.intent.id ::
    ((n.modifier.map Emphasis.id).toList ++ (n.state.map InteractionState.id).toList)

theorem tailSegments_eq (n : Name) : tailSegments n = spelledTail n.normalized := by
  unfold tailSegments
  rw [List.append_nil]
  rfl

/-- What a name is read as when it is spelled out.  The default modifier and the default state
share their word, and the modifier comes first. -/
def asRead (n : Name) : Name :=
  if n.modifier = none ∧ n.state = some .resting then
    { n with modifier := some .normal, state := none }
  else n

theorem normalized_asRead (n : Name) : (asRead n).normalized = n.normalized := by
  unfold asRead
  split
  · next hdefault =>
    rcases hdefault with ⟨hmodifier, hstate⟩
    simp [Name.normalized, hmodifier, hstate, Option.filter, Emphasis.isDefault,
      InteractionState.isDefault]
  · rfl

/-- The default state is left out of a normal form, so it is not taken for a modifier. -/
theorem asRead_normalized (n : Name) : asRead n.normalized = n.normalized := by
  refine if_neg fun hdefault => ?_
  obtain ⟨_, hstate⟩ := hdefault
  have hkept := (Option.filter_eq_some_iff.mp hstate).2
  cases hkept

/-- After the property class each identifier is read on its own axis, apart from the word that the
default modifier and the default state share. -/
theorem IsSpellable.nameOfTail?_spelledTail (h : IsSpellable n) :
    nameOfTail? n.propertyClass (spelledTail n) = some (asRead n) := by
  have hcontext : ∀ x, n.context = some x → UxContext.ofId? x.id = some x := by
    intro x _
    cases x <;> rfl
  have hmodifier : ∀ m, n.modifier = some m → Emphasis.ofId? m.id = some m := by
    intro m _
    cases m <;> rfl
  have hstate : ∀ s, n.state = some s → InteractionState.ofId? s.id = some s := by
    intro s _
    cases s <;> rfl
  -- Each axis takes its own identifier from the front and leaves the others.
  unfold Naming.nameOfTail? spelledTail
  rw [takeId_append hcontext fun _ => by simpa using h.not_context]
  simp only [h.intentOf?]
  by_cases hdefault : n.modifier = none ∧ n.state = some .resting
  · rcases hdefault with ⟨hnone, hresting⟩
    simp [asRead, hnone, hresting, takeId, Emphasis.ofId?, Emphasis.all, Emphasis.id,
      InteractionState.id]
  · -- Without a modifier the state comes next, and it is not the default one.
    have hnext : n.modifier = none → ∀ word,
        (n.state.map InteractionState.id).toList.head? = some word →
          Emphasis.ofId? word = none := by
      intro hnone word hword
      cases hs : n.state with
      | none => simp [hs] at hword
      | some s =>
        simp only [hs, Option.map_some, Option.toList_some, List.head?_cons,
          Option.some.injEq] at hword
        subst hword
        cases s with
        | resting => exact absurd ⟨hnone, hs⟩ hdefault
        | _ => rfl
    have hlast : takeId InteractionState.ofId? ((n.state.map InteractionState.id).toList ++ []) =
        (n.state, []) := takeId_append hstate (by simp)
    rw [List.append_nil] at hlast
    rw [takeId_append hmodifier hnext]
    simp only [hlast]
    simp [asRead, hdefault]

/-- After the property class, each identifier of a canonical path is read on its own axis. -/
theorem IsSpellable.nameOfTail? (h : IsSpellable n) :
    nameOfTail? n.propertyClass (tailSegments n) = some n.normalized := by
  have hnormalized : IsSpellable n.normalized := h
  rw [tailSegments_eq]
  exact hnormalized.nameOfTail?_spelledTail.trans (congrArg some (asRead_normalized n))

/-! ## Round trip -/

theorem strict?_path (h : IsSpellable n) : strict? n.path = some n.normalized := by
  obtain ⟨word, tail, htail⟩ : ∃ word tail, tailSegments n = word :: tail := by
    unfold tailSegments
    cases n.context <;> exact ⟨_, _, rfl⟩
  unfold strict? nameOfSegments?
  rw [h.segments_path, htail, classAhead?_segments_append]
  simpa only [htail] using h.nameOfTail?

theorem suffix_of_classAhead? {segs : List String} (h : classAhead? segs = some (c, tail)) :
    tail <:+ segs := by
  unfold classAhead? at h
  split at h
  · cases h
  · simp only [Option.map_eq_some_iff, Prod.mk.injEq] at h
    rcases h with ⟨_, _, _, rfl⟩
    exact List.nil_suffix
  · split at h
    · cases h
      exact (List.suffix_cons _ _).trans (List.suffix_cons _ _)
    · simp only [Option.map_eq_some_iff, Prod.mk.injEq] at h
      rcases h with ⟨_, _, _, rfl⟩
      exact List.suffix_cons _ _

theorem suffix_takeId {α : Type} (ofId? : String → Option α) (segs : List String) :
    (takeId ofId? segs).2 <:+ segs := by
  unfold takeId
  split
  · exact List.suffix_rfl
  · split
    · exact List.suffix_cons _ _
    · exact List.suffix_rfl

/-- The intent of a name comes from one of the segments that spelled the name. -/
theorem exists_intentOf? (h : nameOfTail? c tail = some n) :
    ∃ word ∈ tail, intentOf? n.context word = some n.intent := by
  unfold nameOfTail? at h
  have hsuffix := suffix_takeId UxContext.ofId? tail
  cases hrest : (takeId UxContext.ofId? tail).2 with
  | nil => simp [hrest] at h
  | cons word rest =>
    simp only [hrest] at h
    split at h
    · cases h
    · next intent hintent =>
      split at h
      · cases h
        exact ⟨word, hsuffix.subset (by simp [hrest]), hintent⟩
      · cases h

/-- A name that fills some segments is one that a path can spell. -/
theorem isSpellable_of_nameOfTail? (hsegs : ∀ word ∈ tail, word ≠ "")
    (h : nameOfTail? c tail = some n) : IsSpellable n := by
  rcases exists_intentOf? h with ⟨word, hword, hintent⟩
  intro own hown
  rw [hown] at hintent
  unfold intentOf? at hintent
  split at hintent
  · next i hi =>
    -- The catalog holds no words of one's own.
    have hcatalog := List.mem_of_find?_eq_some hi
    cases hintent
    simp [Intent.catalog] at hcatalog
  · split at hintent
    · next hplain =>
      cases hintent
      simp only [Bool.and_eq_true, Option.isNone_iff_eq_none] at hplain
      exact ⟨hplain.1.1, hplain.1.2, by simpa using hplain.2, hsegs _ hword⟩
    · cases hintent

/-- A name that was read strictly is one that a path can spell. -/
theorem isSpellable_of_strict? (h : strict? path = some n) : IsSpellable n := by
  unfold strict? nameOfSegments? at h
  split at h
  · next c tail hclass =>
    refine isSpellable_of_nameOfTail? (fun word hword => ?_) h
    exact ne_empty_of_mem_segments ((suffix_of_classAhead? hclass).subset hword)
  · cases h

theorem normalized_normalized (n : Name) : n.normalized.normalized = n.normalized := by
  simp [Name.normalized, Option.filter_filter]

theorem path_normalized (n : Name) : n.normalized.path = n.path := by
  unfold Name.path Name.segments
  rw [normalized_normalized]
  rfl

/-- The canonical path of a name that was read strictly is read as that name. -/
theorem strict?_path_of_strict? (h : strict? path = some n) :
    strict? n.path = some n.normalized :=
  strict?_path (isSpellable_of_strict? h)

end Naming
end DesignTokens
