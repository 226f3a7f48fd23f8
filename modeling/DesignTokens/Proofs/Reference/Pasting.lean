import DesignTokens.Proofs.Reference.Pieces
import DesignTokens.Proofs.Reference.Substitution

/-!
# Pasting one text into another

A text is tidy when each of its braces belongs to a group and each of its groups names a path.  When
a tidy text is pasted into another one in place of the references to some path, the result is cut
into the pieces of both, and to fill it in is to fill in the outer text with the inner one, filled
in, for that path.  Braces that belong to no group are excluded because they could pair up with the
braces of the other text, and blank groups because they are no groups any more once they are written
with trimmed bodies.
-/

namespace DesignTokens.Reference

variable {f : String → String} {source inner outer text p : String}

/-! ## Tidy texts -/

/-- A character that is no brace, or a group that names a path. -/
def Piece.IsTidy : Piece → Prop
  | .char c => isBrace c = false
  | .group body => Text.trimChars body ≠ []

instance : DecidablePred Piece.IsTidy
  | .char c => inferInstanceAs (Decidable (isBrace c = false))
  | .group body => inferInstanceAs (Decidable (Text.trimChars body ≠ []))

/-- Every brace of the text belongs to a group that names a path. -/
def IsTidy (text : String) : Prop := ∀ piece ∈ pieces text, piece.IsTidy

instance : DecidablePred IsTidy := fun text =>
  inferInstanceAs (Decidable (∀ piece ∈ pieces text, piece.IsTidy))

/-- In a tidy text every group is a reference. -/
theorem IsTidy.mem_embedded (h : IsTidy text) (hp : p ∈ bodies text) : p ∈ embedded text := by
  rcases List.mem_filterMap.mp hp with ⟨piece, hpiece, hbody⟩
  cases piece with
  | char c => cases hbody
  | group body =>
    refine List.mem_filterMap.mpr ⟨_, hpiece, ?_⟩
    have hnamed : String.ofList (Text.trimChars body) ≠ "" := by
      intro hblank
      exact h _ hpiece (by simpa using congrArg String.toList hblank)
    cases hbody
    simp [Piece.path?, hnamed]

/-- A text without braces is tidy and has no groups. -/
theorem isTidy_of_noBrace (h : ∀ c ∈ text.toList, isBrace c = false) :
    IsTidy text ∧ bodies text = [] := by
  have hchars : ∀ piece ∈ pieces text, ∀ c ∈ piece.chars, isBrace c = false := by
    intro piece hpiece c hc
    refine h c ?_
    rw [← joined_pieces text, joined, String.toList_ofList]
    exact List.mem_flatMap.mpr ⟨piece, hpiece, hc⟩
  have hnone : ∀ body, Piece.group body ∉ pieces text := by
    intro body hbody
    have hopen := hchars _ hbody '{' (by simp [Piece.chars])
    simp [isBrace] at hopen
  constructor
  · intro piece hpiece
    cases piece with
    | char c => exact hchars _ hpiece c (by simp [Piece.chars])
    | group body => exact absurd hpiece (hnone body)
  · refine List.filterMap_eq_nil_iff.mpr fun piece hpiece => ?_
    cases piece with
    | char c => rfl
    | group body => exact absurd hpiece (hnone body)

/-- Pieces without stray braces are what their text is cut into. -/
theorem pieces_joined {ps : List Piece} (hchar : ∀ c, Piece.char c ∈ ps → isBrace c = false)
    (hgroup : ∀ body, Piece.group body ∈ ps → IsBody body) : pieces (joined ps) = ps := by
  have hcut : pieces (joined ps) = piecesFrom 0 (ps.flatMap Piece.chars) := by
    simp [pieces, joined]
  rw [hcut]
  clear hcut
  induction ps with
  | nil => rfl
  | cons piece ps ih =>
    have hrest := ih (fun c hc => hchar c (List.mem_cons_of_mem _ hc))
      fun body hbody => hgroup body (List.mem_cons_of_mem _ hbody)
    rw [List.flatMap_cons]
    cases piece with
    | char c =>
      have hopen : c ≠ '{' := by
        intro hc
        have hbrace := hchar c List.mem_cons_self
        simp [hc, isBrace] at hbrace
      change piecesFrom 0 (c :: ps.flatMap Piece.chars) = _
      rw [piecesFrom_char fun hc => absurd hc hopen, hrest]
    | group body => rw [piecesFrom_group (hgroup body List.mem_cons_self), hrest]

/-! ## Pasting -/

/-- The pieces that come of a piece when a text is pasted in place of the groups that name a path.
The other groups are written with trimmed bodies. -/
def Piece.paste (source inner : String) : Piece → List Piece
  | .char c => [.char c]
  | .group body =>
    if String.ofList (Text.trimChars body) = source then pieces inner
    else [.group (Text.trimChars body)]

/-- The outer text with the inner one in place of the groups that name the source. -/
def paste (source inner outer : String) : String :=
  fill (fun p => if p = source then inner else "\x7b" ++ p ++ "\x7d") outer

theorem paste_eq_joined (source inner outer : String) :
    paste source inner outer = joined ((pieces outer).flatMap (Piece.paste source inner)) := by
  have hpiece : ∀ piece : Piece,
      piece.fill (fun p => if p = source then inner else "\x7b" ++ p ++ "\x7d") =
        (piece.paste source inner).flatMap Piece.chars := by
    intro piece
    cases piece with
    | char c => rfl
    | group body =>
      by_cases hp : String.ofList (Text.trimChars body) = source
      · simp [Piece.fill, Piece.paste, hp, pieces, flatMap_chars_piecesFrom]
      · simp [Piece.fill, Piece.paste, hp, Piece.chars]
  rw [paste, fill, joined, List.flatMap_assoc]
  congr 1
  exact List.flatMap_congr fun piece _ => hpiece piece

theorem pieces_paste (houter : IsTidy outer) (hinner : IsTidy inner) (source : String) :
    pieces (paste source inner outer) = (pieces outer).flatMap (Piece.paste source inner) := by
  rw [paste_eq_joined]
  refine pieces_joined (fun c hc => ?_) fun body hbody => ?_
  · rcases List.mem_flatMap.mp hc with ⟨piece, hpiece, hmem⟩
    cases piece with
    | char d =>
      obtain rfl : c = d := by simpa [Piece.paste] using hmem
      exact houter _ hpiece
    | group body =>
      simp only [Piece.paste] at hmem
      split at hmem
      · exact hinner _ hmem
      · simp at hmem
  · rcases List.mem_flatMap.mp hbody with ⟨piece, hpiece, hmem⟩
    cases piece with
    | char d => simp [Piece.paste] at hmem
    | group body' =>
      simp only [Piece.paste] at hmem
      split at hmem
      · exact isBody_of_mem_piecesFrom hmem
      · obtain rfl : body = Text.trimChars body' := by simpa using hmem
        -- A trimmed body has no characters but those of the body.
        refine ⟨houter _ hpiece, fun c hc => ?_⟩
        exact (isBody_of_mem_piecesFrom hpiece).2 c (Text.mem_of_mem_trimChars hc)

/-- To fill in a pasted text is to fill in the outer one, in which the source stands for the inner
one filled in. -/
theorem fill_paste (houter : IsTidy outer) (hinner : IsTidy inner) (f : String → String)
    (source : String) : fill f (paste source inner outer) =
      fill (fun p => if p = source then fill f inner else f p) outer := by
  have hpiece : ∀ piece : Piece, (piece.paste source inner).flatMap (Piece.fill f) =
      piece.fill fun p => if p = source then fill f inner else f p := by
    intro piece
    cases piece with
    | char c => rfl
    | group body =>
      by_cases hp : String.ofList (Text.trimChars body) = source
      · simp [Piece.fill, Piece.paste, hp, fill]
      · simp [Piece.fill, Piece.paste, hp, Text.trimChars_trimChars]
  rw [fill, pieces_paste houter hinner, List.flatMap_assoc, fill]
  congr 1
  exact List.flatMap_congr fun piece _ => hpiece piece

/-- A pasted text has no groups but those of the two texts. -/
theorem mem_bodies_paste (houter : IsTidy outer) (hinner : IsTidy inner)
    (h : p ∈ bodies (paste source inner outer)) : p ∈ bodies inner ∨ p ∈ bodies outer := by
  rw [bodies, pieces_paste houter hinner, List.mem_filterMap] at h
  rcases h with ⟨piece, hpiece, hbody⟩
  rcases List.mem_flatMap.mp hpiece with ⟨origin, horigin, hmem⟩
  cases origin with
  | char c =>
    obtain rfl : piece = .char c := by simpa [Piece.paste] using hmem
    cases hbody
  | group body =>
    simp only [Piece.paste] at hmem
    split at hmem
    · exact .inl (List.mem_filterMap.mpr ⟨piece, hmem, hbody⟩)
    · obtain rfl : piece = .group (Text.trimChars body) := by simpa using hmem
      refine .inr (List.mem_filterMap.mpr ⟨_, horigin, ?_⟩)
      rw [← hbody]
      simp [Piece.body?, Text.trimChars_trimChars]

/-- Every piece of a pasted text is tidy. -/
theorem isTidy_paste (houter : IsTidy outer) (hinner : IsTidy inner) (source : String) :
    IsTidy (paste source inner outer) := by
  intro piece hpiece
  rw [pieces_paste houter hinner] at hpiece
  rcases List.mem_flatMap.mp hpiece with ⟨origin, horigin, hmem⟩
  have htidy := houter origin horigin
  cases origin with
  | char c =>
    obtain rfl : piece = .char c := by simpa [Piece.paste] using hmem
    exact htidy
  | group body =>
    simp only [Piece.paste] at hmem
    split at hmem
    · exact hinner _ hmem
    · obtain rfl : piece = .group (Text.trimChars body) := by simpa using hmem
      simpa [Piece.IsTidy, Text.trimChars_trimChars] using htidy

end DesignTokens.Reference
