import DesignTokens.Proofs.Reference.Redirect

/-!
# Extraction from a redirected text

A text whose references to one path become references to another changes in nothing else: it is
cut into the same pieces but for the groups that named the old path, or it was the old path by
itself and is now the new one.  Hence what is extracted from it afterwards is what was extracted
before, with the old path renamed.  There is one exception.  A text that is the new path by itself
is no reference before that path is taken, and is one afterwards.
-/

namespace DesignTokens.Reference

variable {old new text text' : String}

/-- The second text is the first with its references to one path turned into references to
another.  A path by itself is the whole text, blanks around it included; in a text with groups
those that name the old path are replaced, and all other pieces stay. -/
def Relabels (old new text text' : String) : Prop :=
  if Text.trim text = old then text' = new
  else pieces text' = (pieces text).map fun p =>
    if p.path? = some old then .group new.toList else p

theorem Piece.redirect_eq (hold : old ≠ "") (p : Piece) :
    p.redirect old new = if p.path? = some old then .group new.toList else p := by
  cases p with
  | char c => rfl
  | group body =>
    -- A group whose body is the old path names it, since the old path is not blank.
    have hnames : Piece.path? (.group body) = some old ↔
        String.ofList (Text.trimChars body) = old := by
      simp [Piece.path?_eq_some_iff, hold]
    simp only [Piece.redirect, hnames]

/-- If no piece names the old path then all of them stay. -/
theorem map_pieces_of_not_mem (h : old ∉ embedded text) :
    ((pieces text).map fun p => if p.path? = some old then .group new.toList else p) =
      pieces text := by
  have hkept : ∀ p ∈ pieces text,
      (if p.path? = some old then .group new.toList else p) = p := fun p hp =>
    if_neg fun hpath => h (List.mem_filterMap.mpr ⟨p, hp, hpath⟩)
  rw [List.map_congr_left hkept, List.map_id']

theorem redirect_relabels (hold : old ≠ "") (hnew : IsClean new) (text : String) :
    Relabels old new text ((redirect? text old new).getD text) := by
  have hpiece : Piece.redirect old new = fun p =>
      if p.path? = some old then .group new.toList else p := funext (Piece.redirect_eq hold)
  unfold Relabels redirect?
  by_cases hbare : Text.trim text = old
  · simp [hbare]
  · by_cases hmem : old ∈ embedded text
    · simp only [hbare, hmem, List.contains_iff_mem, if_true, if_false, Option.getD_some]
      rw [pieces_joined_redirect hnew.isReferable, hpiece]
    · simp only [hbare, hmem, List.contains_iff_mem, if_false, Option.getD_none]
      exact (map_pieces_of_not_mem hmem).symm

/-! ## Extraction -/

section

variable {owner : String} {known known' : String → Bool}

/-- A clean path by itself is extracted wherever it is known, except from its own text. -/
theorem extract_of_trim_eq (hclean : IsClean old) (htrim : Text.trim text = old)
    (howner : owner ≠ old) (hknown : known old = true) : extract owner text known = [old] := by
  have hnone : embedded text = [] := embedded_of_trim_eq htrim fun c hc => (hclean.2 c hc).1
  rw [extract_of_not_embedded hnone, htrim, if_pos]
  simp [hclean.1, howner.symm, hclean.hasBlank, hknown]

/-- The references of a relabelled text are those of the text with the old path renamed, unless
the text was the new path by itself before that was taken. -/
theorem extract_of_relabels (hold : IsClean old) (hnew : IsClean new) (hownerOld : owner ≠ old)
    (hownerNew : owner ≠ new) (hknown : known old = true) (hknown' : known' new = true)
    (hsame : ∀ q, q ≠ old → q ≠ new → known' q = known q) (hbare : Text.trim text ≠ new)
    (h : Relabels old new text text') :
    extract owner text' known' =
      Text.firsts ((extract owner text known).map fun q => if q = old then new else q) := by
  unfold Relabels at h
  by_cases htrim : Text.trim text = old
  · rw [if_pos htrim] at h
    rw [h, extract_of_trim_eq hnew hnew.trim hownerNew hknown',
      extract_of_trim_eq hold htrim hownerOld hknown]
    simp [Text.firsts]
  · rw [if_neg htrim] at h
    by_cases hnone : embedded text = []
    · -- Without references nothing was replaced, and the text by itself is neither path.
      rw [map_pieces_of_not_mem (by simp [hnone])] at h
      have hsametext : text' = text := by rw [← joined_pieces text', h, joined_pieces]
      rw [hsametext, extract_of_not_embedded hnone, extract_of_not_embedded hnone,
        hsame _ htrim hbare]
      split
      · simp [htrim, Text.firsts]
      · rfl
    · have hembedded : embedded text' =
          (embedded text).map fun q => if q = old then new else q := by
        have hpiece : (fun p : Piece => if p.path? = some old then .group new.toList else p) =
            Piece.redirect old new := funext fun p => (Piece.redirect_eq hold.1 p).symm
        rw [← embedded_joined_redirect hold.1 hnew.isReferable, ← hpiece, ← h, joined_pieces]
      have hsome : embedded text' ≠ [] := by simpa [hembedded] using hnone
      rw [extract_of_embedded hsome, extract_of_embedded hnone, hembedded,
        Text.firsts_map_firsts]

end

end DesignTokens.Reference
