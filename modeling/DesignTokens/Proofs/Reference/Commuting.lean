import DesignTokens.Proofs.Reference.Relabelling

/-!
# Two redirections of one text

Redirections to clean paths can be made in either order, if no path that one of them leaves is left
or reached by the other: each of them touches the references to its own path and nothing else.

The paths that are left have no braces.  A path with braces can be what a text becomes when another
reference in it is redirected, and then the order does make a difference.
-/

namespace DesignTokens.Reference

variable {a b a' b' text : String} {p : Piece}

/-- The text with every reference to `old` turned into one to `new`. -/
def redirected (old new text : String) : String := (redirect? text old new).getD text

/-- A redirection from a path without braces to a clean path. -/
structure IsPlain (old new : String) : Prop where
  ne_empty : old ≠ ""
  noBrace : ∀ c ∈ old.toList, isBrace c = false
  clean : IsClean new

theorem redirected_of_not_mentions (h : mentions text a = false) : redirected a a' text = text := by
  rw [redirected, redirect?_eq_none_iff.mpr h, Option.getD_none]

theorem redirected_of_trim_eq (h : Text.trim text = a) : redirected a a' text = a' := by
  simp [redirected, redirect?, h]

namespace IsPlain

variable (h : IsPlain a a')
include h

/-- A text that is a path without braces mentions no other path. -/
theorem not_mentions_of_trim_eq (htrim : Text.trim text = a) (hne : a ≠ b) :
    mentions text b = false := by
  rw [← Bool.not_eq_true, mentions_iff, embedded_of_trim_eq htrim h.noBrace, htrim]
  simp [hne]

/-- Where the redirection ends only that path is mentioned. -/
theorem not_mentions_target (hne : b ≠ a') : mentions a' b = false := by
  rw [← Bool.not_eq_true, mentions_iff, h.clean.trim, h.clean.embedded]
  simp [hne.symm]

theorem pieces_redirected (htrim : Text.trim text ≠ a) :
    pieces (redirected a a' text) = (pieces text).map (Piece.redirect a a') := by
  have hrelabels := redirect_relabels h.ne_empty h.clean text
  have hpiece : Piece.redirect a a' = fun p =>
      if p.path? = some a then .group a'.toList else p :=
    funext (Piece.redirect_eq h.ne_empty)
  rw [Relabels, if_neg htrim, ← hpiece] at hrelabels
  exact hrelabels

theorem embedded_redirected (htrim : Text.trim text ≠ a) :
    embedded (redirected a a' text) = (embedded text).map fun q => if q = a then a' else q := by
  rw [embedded, h.pieces_redirected htrim, embedded, List.filterMap_map, List.map_filterMap]
  exact List.filterMap_congr fun p _ => path?_redirect h.ne_empty h.clean.isReferable p

/-- A redirection inside a text makes it no path without braces that it was not before. -/
theorem trim_redirected_ne (hb : ∀ c ∈ b.toList, isBrace c = false) (htrim : Text.trim text ≠ a)
    (hne : Text.trim text ≠ b) : Text.trim (redirected a a' text) ≠ b := by
  by_cases hmem : a ∈ embedded text
  · have hnew : a' ∈ embedded (redirected a a' text) := by
      rw [h.embedded_redirected htrim]
      exact List.mem_map.mpr ⟨a, hmem, if_pos rfl⟩
    intro heq
    have hbrace := hb '{' (heq ▸ brace_mem_trim hnew)
    simp [isBrace] at hbrace
  · have hnot : mentions text a = false := by
      rw [← Bool.not_eq_true, mentions_iff]
      exact fun hmention => hmention.elim htrim hmem
    rwa [redirected_of_not_mentions hnot]

end IsPlain

/-! ## Either order -/

section

variable (h : IsPlain a a') (h' : IsPlain b b') (hab : a ≠ b)
include h h' hab

/-- A redirection keeps the references to paths that it neither leaves nor reaches. -/
theorem mentions_redirected (hba : b ≠ a') :
    mentions (redirected a a' text) b = mentions text b := by
  by_cases htrim : Text.trim text = a
  · rw [redirected_of_trim_eq htrim, h.not_mentions_target hba,
      h.not_mentions_of_trim_eq htrim hab]
  · by_cases hbare : Text.trim text = b
    · rw [redirected_of_not_mentions (h'.not_mentions_of_trim_eq hbare hab.symm)]
    · -- What stands between the braces is renamed, but not `b`.
      have hrenamed : b ∈ embedded (redirected a a' text) ↔ b ∈ embedded text := by
        rw [h.embedded_redirected htrim, List.mem_map]
        constructor
        · rintro ⟨q, hq, heq⟩
          split at heq
          · exact absurd heq.symm hba
          · exact heq ▸ hq
        · exact fun hq => ⟨b, hq, if_neg hab.symm⟩
      rw [Bool.eq_iff_iff, mentions_iff, mentions_iff, hrenamed]
      simp [hbare, h.trim_redirected_ne h'.noBrace htrim hbare]

theorem Piece.redirect_comm (hab' : a ≠ b') (hba : b ≠ a') (p : Piece) :
    (p.redirect b b').redirect a a' = (p.redirect a a').redirect b b' := by
  cases p with
  | char c => rfl
  | group body =>
    have hreached : ∀ {q : String}, IsClean q → String.ofList (Text.trimChars q.toList) = q :=
      fun hq => hq.trim
    by_cases hbody : String.ofList (Text.trimChars body) = a
    · simp [Piece.redirect, hbody, hab, hreached h.clean, hba.symm]
    · by_cases hbody' : String.ofList (Text.trimChars body) = b
      · simp [Piece.redirect, hbody', hab.symm, hreached h'.clean, hab'.symm]
      · simp [Piece.redirect, hbody, hbody']

theorem redirected_comm (hab' : a ≠ b') (hba : b ≠ a') (text : String) :
    redirected a a' (redirected b b' text) = redirected b b' (redirected a a' text) := by
  by_cases htrim : Text.trim text = a
  · rw [redirected_of_not_mentions (h.not_mentions_of_trim_eq htrim hab),
      redirected_of_trim_eq htrim, redirected_of_not_mentions (h.not_mentions_target hba)]
  · by_cases hbare : Text.trim text = b
    · rw [redirected_of_trim_eq hbare,
        redirected_of_not_mentions (h'.not_mentions_target hab'),
        redirected_of_not_mentions (h'.not_mentions_of_trim_eq hbare hab.symm),
        redirected_of_trim_eq hbare]
    · -- Both texts are cut into the same pieces.
      have hpieces : pieces (redirected a a' (redirected b b' text)) =
          pieces (redirected b b' (redirected a a' text)) := by
        rw [h.pieces_redirected (h'.trim_redirected_ne h.noBrace hbare htrim),
          h'.pieces_redirected (h.trim_redirected_ne h'.noBrace htrim hbare),
          h'.pieces_redirected hbare, h.pieces_redirected htrim, List.map_map, List.map_map]
        exact List.map_congr_left fun p _ => Piece.redirect_comm h h' hab hab' hba p
      rw [← joined_pieces (redirected a a' (redirected b b' text)), hpieces, joined_pieces]

end

end DesignTokens.Reference
