import DesignTokens.Proofs.Reference.Pieces
import Mathlib.Data.List.Basic

/-!
# Redirected references

A path is referable when it can stand between braces: it is not empty, has no braces and is not
changed by trimming.  It is clean when it has no blanks inside either, so that it can also stand by
itself.  Redirecting the references of a text from one path to a referable path renames that path
among the embedded references and keeps the others, so the text no longer mentions the old path in
any of the three ways.
-/

namespace DesignTokens

namespace Reference

/-! ## Referable and clean paths -/

/-- A path that is read back from between braces. -/
structure IsReferable (path : String) : Prop where
  ne_empty : path ≠ ""
  trim : Text.trim path = path
  noBrace : ∀ c ∈ path.toList, isBrace c = false

instance : DecidablePred IsReferable := fun path =>
  -- Only the characters of the path are looked at, not all there are.
  have : Decidable (∀ c ∈ path.toList, isBrace c = false) := List.decidableBAll _ _
  decidable_of_iff (path ≠ "" ∧ Text.trim path = path ∧ ∀ c ∈ path.toList, isBrace c = false)
    ⟨fun h => ⟨h.1, h.2.1, h.2.2⟩, fun h => ⟨h.ne_empty, h.trim, h.noBrace⟩⟩

namespace IsReferable

variable {path : String}

theorem embedded (h : IsReferable path) : embedded path = [] := embedded_of_noBrace h.noBrace

theorem isBody (h : IsReferable path) : IsBody path.toList := by
  refine ⟨?_, h.noBrace⟩
  intro hnil
  exact h.ne_empty (String.toList_injective (by simpa using hnil))

/-- Between braces a referable path names itself. -/
theorem path?_group (h : IsReferable path) : Piece.path? (.group path.toList) = some path := by
  have htrim : String.ofList (Text.trimChars path.toList) = path := h.trim
  simp [Piece.path?, htrim, h.ne_empty]

end IsReferable

/-- A path that is not empty and has neither braces nor blanks. -/
def IsClean (path : String) : Prop :=
  path ≠ "" ∧ ∀ c ∈ path.toList, isBrace c = false ∧ Text.isBlank c = false

instance : DecidablePred IsClean := fun path =>
  have : Decidable (∀ c ∈ path.toList, isBrace c = false ∧ Text.isBlank c = false) :=
    List.decidableBAll _ _
  inferInstanceAs (Decidable (_ ∧ _))

namespace IsClean

variable {path : String}

theorem trim (h : IsClean path) : Text.trim path = path := by
  rw [Text.trim, Text.trimChars_of_noBlank fun c hc => (h.2 c hc).2, String.ofList_toList]

theorem hasBlank (h : IsClean path) : Text.hasBlank path = false := by
  simpa [Text.hasBlank] using fun c hc => (h.2 c hc).2

theorem isReferable (h : IsClean path) : IsReferable path :=
  ⟨h.1, h.trim, fun c hc => (h.2 c hc).1⟩

theorem embedded (h : IsClean path) : embedded path = [] := h.isReferable.embedded

end IsClean

/-! ## Embedded references -/

/-- Only a group names a path, and no group names the empty one. -/
theorem Piece.path?_eq_some_iff {piece : Piece} {p : String} : piece.path? = some p ↔
    p ≠ "" ∧ ∃ body, piece = .group body ∧ String.ofList (Text.trimChars body) = p := by
  cases piece with
  | char c => simp [Piece.path?]
  | group body =>
    by_cases hblank : String.ofList (Text.trimChars body) = ""
    · simp [Piece.path?, hblank, eq_comm]
    · simp only [Piece.path?, if_neg hblank, Option.some.injEq, Piece.group.injEq]
      constructor
      · rintro rfl
        exact ⟨hblank, body, rfl, rfl⟩
      · rintro ⟨_, _, rfl, hbody⟩
        exact hbody

theorem exists_group_of_mem_embedded {text p : String} (h : p ∈ embedded text) :
    p ≠ "" ∧ ∃ body, Piece.group body ∈ pieces text ∧
      String.ofList (Text.trimChars body) = p := by
  rcases List.mem_filterMap.mp h with ⟨_, hpiece, hpath⟩
  obtain ⟨hne, body, rfl, hbody⟩ := Piece.path?_eq_some_iff.mp hpath
  exact ⟨hne, body, hpiece, hbody⟩

/-- An embedded reference is not empty and has no braces. -/
theorem noBrace_of_mem_embedded {text p : String} (h : p ∈ embedded text) :
    p ≠ "" ∧ ∀ c ∈ p.toList, isBrace c = false := by
  obtain ⟨hne, body, hgroup, rfl⟩ := exists_group_of_mem_embedded h
  refine ⟨hne, fun c hc => ?_⟩
  rw [String.toList_ofList] at hc
  exact (isBody_of_mem_piecesFrom hgroup).2 c (Text.mem_of_mem_trimChars hc)

/-- A text with an embedded reference keeps its braces when trimmed. -/
theorem brace_mem_trim {text p : String} (h : p ∈ embedded text) :
    '{' ∈ (Text.trim text).toList := by
  obtain ⟨_, body, hgroup, _⟩ := exists_group_of_mem_embedded h
  have hchars : '{' ∈ (pieces text).flatMap Piece.chars :=
    List.mem_flatMap.mpr ⟨_, hgroup, by simp [Piece.chars]⟩
  have htext : '{' ∈ text.toList := by
    simpa [pieces, flatMap_chars_piecesFrom] using hchars
  rw [Text.toList_trim]
  exact Text.mem_trimChars htext (by decide)

/-- A text that is a path without braces embeds nothing. -/
theorem embedded_of_trim_eq {text p : String} (h : Text.trim text = p)
    (hp : ∀ c ∈ p.toList, isBrace c = false) : embedded text = [] := by
  refine List.eq_nil_iff_forall_not_mem.mpr fun q hq => ?_
  have hbrace := hp '{' (h ▸ brace_mem_trim hq)
  simp [isBrace] at hbrace

/-- A text is none of the paths that stand between its braces. -/
theorem trim_ne_of_mem_embedded {text p : String} (h : p ∈ embedded text) : Text.trim text ≠ p := by
  intro htrim
  rw [embedded_of_trim_eq htrim (noBrace_of_mem_embedded h).2] at h
  cases h

theorem mentions_iff {text target : String} :
    mentions text target = true ↔ Text.trim text = target ∨ target ∈ embedded text := by
  simp [mentions]

/-! ## Redirection -/

variable {old new text text' : String}

theorem isBodyMap_redirect (hnew : IsReferable new) : IsBodyMap (Piece.redirect old new) where
  char _ := rfl
  group body := by
    by_cases h : String.ofList (Text.trimChars body) = old
    · exact ⟨new.toList, by simp [Piece.redirect, h], fun _ => hnew.isBody⟩
    · exact ⟨body, by simp [Piece.redirect, h], id⟩

theorem path?_redirect (hold : old ≠ "") (hnew : IsReferable new) (p : Piece) :
    (p.redirect old new).path? = p.path?.map fun q => if q = old then new else q := by
  cases p with
  | char c => rfl
  | group body =>
    -- Only the body that names the old path is replaced; a blank body names nothing.
    by_cases h : String.ofList (Text.trimChars body) = old
    · have hpath : Piece.path? (.group body) = some old := by simp [Piece.path?, h, hold]
      simp [Piece.redirect, h, hnew.path?_group, hpath]
    · by_cases hblank : String.ofList (Text.trimChars body) = ""
      · have hkept : Piece.redirect old new (.group body) = .group body := by
          simp only [Piece.redirect, if_neg h]
        simp [hkept, Piece.path?, hblank]
      · simp [Piece.redirect, Piece.path?, h, hblank]

/-- A redirected text is cut where the old one was. -/
theorem pieces_joined_redirect (hnew : IsReferable new) (text : String) :
    pieces (joined ((pieces text).map (Piece.redirect old new))) =
      (pieces text).map (Piece.redirect old new) := by
  simpa [pieces, joined] using piecesFrom_flatMap_map (isBodyMap_redirect hnew) text.toList

/-- In a redirected text the old path is renamed among the embedded references. -/
theorem embedded_joined_redirect (hold : old ≠ "") (hnew : IsReferable new) (text : String) :
    embedded (joined ((pieces text).map (Piece.redirect old new))) =
      (embedded text).map fun q => if q = old then new else q := by
  -- The cut is the same, so the paths can be compared piece by piece.
  rw [embedded, pieces_joined_redirect hnew, embedded, List.filterMap_map, List.map_filterMap]
  exact List.filterMap_congr fun p _ => path?_redirect hold hnew p

/-- A text is redirected exactly when it mentions the old path. -/
theorem isSome_redirect? (text old new : String) :
    (redirect? text old new).isSome = mentions text old := by
  unfold redirect? mentions
  by_cases hbare : Text.trim text = old
  · simp [hbare]
  · by_cases hmem : old ∈ embedded text
    · simp [hbare, hmem]
    · simp [hbare, hmem]

theorem redirect?_eq_none_iff : redirect? text old new = none ↔ mentions text old = false := by
  rw [← isSome_redirect? text old new, Option.isSome_eq_false_iff, Option.isNone_iff_eq_none]

/-- A text that is the old path becomes the new one, and any other is redirected piece by piece. -/
theorem redirect?_eq_some_iff : redirect? text old new = some text' ↔
    Text.trim text = old ∧ text' = new ∨
      Text.trim text ≠ old ∧ old ∈ embedded text ∧
        text' = joined ((pieces text).map (Piece.redirect old new)) := by
  unfold redirect?
  by_cases hbare : Text.trim text = old
  · simp [hbare, eq_comm]
  · by_cases hmem : old ∈ embedded text
    · simp [hbare, hmem, eq_comm]
    · simp [hbare, hmem]

/-- A redirected text is the new path by itself, or it embeds the new path in place of the old. -/
theorem redirect?_cases (hnew : IsReferable new) (h : redirect? text old new = some text') :
    (Text.trim text = old ∧ text' = new) ∨
      (old ∈ embedded text ∧
        embedded text' = (embedded text).map fun q => if q = old then new else q) := by
  rcases redirect?_eq_some_iff.mp h with hbare | ⟨_, hmem, rfl⟩
  · exact .inl hbare
  · exact .inr ⟨hmem, embedded_joined_redirect (noBrace_of_mem_embedded hmem).1 hnew text⟩

theorem mentions_of_redirect? (hnew : IsReferable new) (h : redirect? text old new = some text') :
    mentions text' new = true := by
  rw [mentions_iff]
  rcases redirect?_cases hnew h with ⟨_, rfl⟩ | ⟨hmem, hembedded⟩
  · exact .inl hnew.trim
  · rw [hembedded]
    exact .inr (List.mem_map.mpr ⟨old, hmem, if_pos rfl⟩)

/-- A redirected text mentions the old path in none of the three ways. -/
theorem not_mentions_of_redirect? (hnew : IsReferable new) (hne : old ≠ new)
    (h : redirect? text old new = some text') : mentions text' old = false := by
  rw [← Bool.not_eq_true, mentions_iff]
  rcases redirect?_cases hnew h with ⟨_, rfl⟩ | ⟨hmem, hembedded⟩
  · rw [hnew.trim, hnew.embedded]
    simp [Ne.symm hne]
  · -- No embedded reference is renamed to the old path, and those that had it are renamed.
    have hgone : old ∉ embedded text' := by
      rw [hembedded, List.mem_map]
      intro hrenamed
      rcases hrenamed with ⟨q, _, hq⟩
      split at hq
      · exact hne hq.symm
      · next hqold => exact hqold hq
    have hnewmem : new ∈ embedded text' := by
      rw [hembedded]
      exact List.mem_map.mpr ⟨old, hmem, if_pos rfl⟩
    intro hmention
    rcases hmention with hbare | hmem'
    · -- The old path stood between braces and so has none; the new text has some.
      have hbrace := (noBrace_of_mem_embedded hmem).2 '{' (hbare ▸ brace_mem_trim hnewmem)
      simp [isBrace] at hbrace
    · exact hgone hmem'

end Reference

end DesignTokens
