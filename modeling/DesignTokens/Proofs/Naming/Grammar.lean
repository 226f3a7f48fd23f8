import DesignTokens.Proofs.Naming.Spelling

/-!
# The strict grammar

The strict reading takes what it can from the front and never goes back.  The grammar is what it
ought to accept: the pieces of a property class, a context or none, an intent, a modifier or none,
a state or none, and then nothing more.  The reading misses no sentence of the grammar, because no
two axes that follow each other share a word, except the modifier and the state, and what they
share is the word for the default, which a normal form leaves out.  So two names that the same
segments spell have one normal form.
-/

namespace DesignTokens
namespace Naming

variable {n m : Name} {c : PropertyClass} {path word : String} {segs tail : List String}

/-! ## Sentences -/

/-- Some segments spell a name: they are the pieces of its class, its context if it has one, its
intent, its modifier if it has one and its state if it has one.  The intent is one of the catalogue
or, without a context, a word of one's own. -/
structure Spells (segs : List String) (n : Name) : Prop where
  hasSpelling : HasSpelling n
  segments_eq : segs = segments n.propertyClass.id ++ spelledTail n

/-- What spells a name is read as that name, up to the word that two defaults share. -/
theorem Spells.nameOfSegments? (h : Spells segs n) : nameOfSegments? segs = some (asRead n) := by
  obtain ⟨word, tail, htail⟩ : ∃ word tail, spelledTail n = word :: tail := by
    unfold spelledTail
    cases n.context <;> exact ⟨_, _, rfl⟩
  have hread := (hasSpelling_iff.mp h.hasSpelling).nameOfTail?_spelledTail
  unfold Naming.nameOfSegments?
  rw [h.segments_eq, htail, classAhead?_segments_append]
  simpa only [htail] using hread

/-- Two names that the same segments spell differ in what a normal form leaves out at most. -/
theorem Spells.normalized_eq (h : Spells segs n) (h' : Spells segs m) :
    n.normalized = m.normalized := by
  have hsame : asRead n = asRead m := by
    have hread := h.nameOfSegments?
    rw [h'.nameOfSegments?] at hread
    exact (Option.some.inj hread).symm
  rw [← normalized_asRead n, hsame, normalized_asRead m]

/-! ## Segments of segments -/

/-- The parts of a list that is cut hold nothing that it is cut at. -/
theorem eq_false_of_mem_splitOnP {α : Type} {p : α → Bool} {l : List α} :
    ∀ part ∈ l.splitOnP p, ∀ a ∈ part, p a = false := by
  induction l with
  | nil => simp
  | cons a l ih =>
    rw [List.splitOnP_cons_eq_if_modifyHead]
    split
    · exact List.forall_mem_cons.mpr ⟨by simp, ih⟩
    · next hkept =>
      -- The first member joins the first part.
      cases hsplit : l.splitOnP p with
      | nil => simp
      | cons part parts =>
        rw [hsplit] at ih
        have hrest := List.forall_mem_cons.mp ih
        refine List.forall_mem_cons.mpr ⟨?_, hrest.2⟩
        exact List.forall_mem_cons.mpr ⟨by simpa using hkept, hrest.1⟩

/-- A segment is one piece: cutting it once more leaves it whole. -/
theorem segments_of_mem_segments (h : word ∈ segments path) : segments word = [word] := by
  have hne := ne_empty_of_mem_segments h
  rcases List.mem_map.mp h with ⟨part, hpart, rfl⟩
  have hwhole := eq_false_of_mem_splitOnP part (List.mem_filter.mp hpart).1
  have hnil : part ≠ [] := by
    rintro rfl
    exact hne rfl
  unfold segments Text.wordsBy
  rw [String.toList_ofList, List.splitOnP_eq_singleton hwhole]
  simp [hnil]

theorem segments_compound (word next : String) :
    segments (compound word next) = segments word ++ segments next := by
  have hcut : isSeparator '-' = true := by decide
  have hchars : (compound word next).toList = word.toList ++ '-' :: next.toList := by
    simp [compound]
  unfold segments Text.wordsBy
  rw [hchars, List.splitOnP_append_cons _ _ hcut, List.filter_append, List.map_append]

/-! ## What is read was spelled -/

theorem id_of_ofId? (h : PropertyClass.ofId? word = some c) : c.id = word := by
  simpa using List.find?_some h

/-- The class that is read at the head of some segments is spelled there. -/
theorem eq_append_of_classAhead? (hsegs : ∀ word ∈ segs, segments word = [word])
    (h : classAhead? segs = some (c, tail)) : segs = segments c.id ++ tail := by
  unfold classAhead? at h
  split at h
  · cases h
  · next word =>
    rcases Option.map_eq_some_iff.mp h with ⟨c', hid, hpair⟩
    cases hpair
    rw [id_of_ofId? hid, hsegs word List.mem_cons_self]
    rfl
  · next word next rest =>
    have hword := hsegs word List.mem_cons_self
    have hnext := hsegs next (List.mem_cons_of_mem _ List.mem_cons_self)
    split at h
    · next c' hid =>
      cases h
      rw [id_of_ofId? hid, segments_compound, hword, hnext]
      rfl
    · rcases Option.map_eq_some_iff.mp h with ⟨c', hid, hpair⟩
      cases hpair
      rw [id_of_ofId? hid, hword]
      rfl

/-- What an axis takes from the front is its identifier or nothing. -/
theorem eq_append_of_takeId {α : Type} {all : List α} {id : α → String} {o : Option α}
    {rest : List String}
    (h : takeId (fun word => all.find? fun a => id a == word) segs = (o, rest)) :
    segs = (o.map id).toList ++ rest := by
  unfold takeId at h
  split at h
  · cases h
    rfl
  · next word rest =>
    split at h
    · next a hid =>
      cases h
      have hword : id a = word := by simpa using List.find?_some hid
      rw [← hword]
      rfl
    · cases h
      rfl

theorem id_of_intentOf? {context : Option UxContext} {intent : Intent}
    (h : intentOf? context word = some intent) : intent.id = word := by
  unfold intentOf? at h
  split at h
  · next i hid =>
    cases h
    simpa using List.find?_some hid
  · split at h
    · cases h
      rfl
    · cases h

/-- The name that is read after a class has this class and is spelled by the segments. -/
theorem spelledTail_of_nameOfTail? (h : nameOfTail? c tail = some n) :
    n.propertyClass = c ∧ tail = spelledTail n := by
  unfold nameOfTail? at h
  cases hcontext : takeId UxContext.ofId? tail with
  | mk context afterContext =>
    rw [eq_append_of_takeId hcontext]
    simp only [hcontext] at h
    split at h
    · cases h
    · next word rest =>
      split at h
      · cases h
      · next intent hintent =>
        cases hmodifier : takeId Emphasis.ofId? rest with
        | mk modifier afterModifier =>
          cases hstate : takeId InteractionState.ofId? afterModifier with
          | mk state afterState =>
            simp only [hmodifier, hstate, List.isEmpty_iff] at h
            split at h
            · next hend =>
              cases h
              subst hend
              refine ⟨rfl, ?_⟩
              rw [eq_append_of_takeId hmodifier, eq_append_of_takeId hstate, List.append_nil,
                spelledTail, id_of_intentOf? hintent]
            · cases h

/-- The name that is read strictly is spelled by the segments of the path. -/
theorem spells_of_strict? (h : strict? path = some n) : Spells (segments path) n := by
  have hspelling := hasSpelling_iff.mpr (isSpellable_of_strict? h)
  unfold strict? nameOfSegments? at h
  split at h
  · next c tail hclass =>
    obtain ⟨rfl, htail⟩ := spelledTail_of_nameOfTail? h
    refine ⟨hspelling, ?_⟩
    rw [← htail]
    exact eq_append_of_classAhead? (fun word hword => segments_of_mem_segments hword) hclass
  · cases h

/-! ## The grammar and the reading -/

/-- A path is read strictly exactly if its segments spell some name.  The name that is read is one
that they spell, and every other one has the same normal form. -/
theorem strict_accepts_grammar (path : String) :
    ((strict? path).isSome = true ↔ ∃ m, Spells (segments path) m) ∧
      ∀ n, strict? path = some n → Spells (segments path) n ∧
        ∀ m, Spells (segments path) m → n.normalized = m.normalized := by
  refine ⟨⟨fun h => ?_, fun h => ?_⟩, fun n hn => ?_⟩
  · rcases Option.isSome_iff_exists.mp h with ⟨n, hn⟩
    exact ⟨n, spells_of_strict? hn⟩
  · rcases h with ⟨m, hm⟩
    rw [strict?, hm.nameOfSegments?]
    rfl
  · have hspells := spells_of_strict? hn
    exact ⟨hspells, fun m hm => hspells.normalized_eq hm⟩

/-- A class of two segments, a word of one's own, and the word that the default modifier and the
default state share: it is read as the modifier, and the name with the state has the same normal
form. -/
theorem strict_accepts_grammar_sharedDefault :
    ∃ n m, strict? "spacing-inline/brandish2-default" = some n ∧ n ≠ m ∧
      Spells (segments "spacing-inline/brandish2-default") m ∧ n.normalized = m.normalized := by
  let n : Name :=
    { propertyClass := .spacingInline, intent := .custom "brandish2", modifier := some .normal }
  let m : Name :=
    { propertyClass := .spacingInline, intent := .custom "brandish2", state := some .resting }
  have hread : strict? "spacing-inline/brandish2-default" = some n := by decide
  have hword : IsOwnWord "brandish2" := isOwnWord_iff.mpr (by decide)
  have hspells : Spells (segments "spacing-inline/brandish2-default") m :=
    ⟨.inr ⟨"brandish2", rfl, rfl, hword⟩, by decide⟩
  have hsame := ((strict_accepts_grammar _).2 n hread).2 m hspells
  exact ⟨n, m, hread, by decide, hspells, hsame⟩

end Naming
end DesignTokens
