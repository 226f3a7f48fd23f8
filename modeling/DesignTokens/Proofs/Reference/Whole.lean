import DesignTokens.Proofs.Reference.Relabelling
import DesignTokens.Proofs.Reference.Substitution

/-!
# Whole references and filled texts under a relabelling

A text is one group exactly if its pieces are a group with blanks around it.  So a text whose
references to one path become references to another is one group before exactly if it is one
afterwards, and to fill in the new text is to fill in the old one, in which the new path stands for
the old one.
-/

namespace DesignTokens

namespace Text

theorem trimEnd_append_blanks {cs blanks : List Char} {c : Char} (hc : isBlank c = false)
    (h : ∀ d ∈ blanks, isBlank d = true) : trimEnd (cs ++ c :: blanks) = cs ++ [c] := by
  have hblanks : trimEnd blanks = [] := by
    induction blanks with
    | nil => rfl
    | cons d blanks ih =>
      rw [trimEnd, ih fun e he => h e (List.mem_cons_of_mem _ he)]
      exact if_pos (h d List.mem_cons_self)
  induction cs with
  | nil => simp [trimEnd, hblanks, hc]
  | cons d cs ih =>
    rw [List.cons_append, trimEnd, ih]
    cases cs with
    | nil => rfl
    | cons e cs => rfl

end Text

namespace Reference

variable {text text' old new p : String} {f : String → String}

/-! ## One group -/

theorem piecesFrom_blanks_append {blanks : List Char} (h : ∀ c ∈ blanks, Text.isBlank c = true)
    (cs : List Char) : piecesFrom 0 (blanks ++ cs) = blanks.map Piece.char ++ piecesFrom 0 cs := by
  induction blanks with
  | nil => rfl
  | cons c blanks ih =>
    have hopen : c ≠ '{' := by
      rintro rfl
      exact absurd (h '{' List.mem_cons_self) (by decide)
    rw [List.cons_append, piecesFrom_char fun hc => absurd hc hopen,
      ih fun d hd => h d (List.mem_cons_of_mem _ hd)]
    rfl

/-- The pieces are a group with blanks around it. -/
def IsOneGroup (ps : List Piece) (body : List Char) : Prop :=
  ∃ before after : List Char, (∀ c ∈ before, Text.isBlank c = true) ∧
    (∀ c ∈ after, Text.isBlank c = true) ∧
    ps = before.map Piece.char ++ .group body :: after.map Piece.char

theorem piecesFrom_oneGroup {before after body : List Char} (hbody : IsBody body)
    (hbefore : ∀ c ∈ before, Text.isBlank c = true) (hafter : ∀ c ∈ after, Text.isBlank c = true) :
    piecesFrom 0 (before ++ (Piece.chars (.group body) ++ after)) =
      before.map Piece.char ++ .group body :: after.map Piece.char := by
  have hrest : piecesFrom 0 after = after.map Piece.char := by
    simpa [piecesFrom] using piecesFrom_blanks_append hafter []
  rw [piecesFrom_blanks_append hbefore, piecesFrom_group hbody, hrest]

/-- A group with blanks around it is trimmed to the group. -/
theorem trimChars_oneGroup {before after : List Char} (body : List Char)
    (hbefore : ∀ c ∈ before, Text.isBlank c = true) (hafter : ∀ c ∈ after, Text.isBlank c = true) :
    Text.trimChars (before ++ (Piece.chars (.group body) ++ after)) =
      Piece.chars (.group body) := by
  have hstart : Text.trimStart (before ++ (Piece.chars (.group body) ++ after)) =
      Piece.chars (.group body) ++ after := by
    rw [Text.trimStart, List.dropWhile_append_of_pos hbefore]
    exact Text.trimStart_of_head (by decide)
  have hend : Piece.chars (.group body) ++ after = ('{' :: body) ++ '}' :: after := by
    simp [Piece.chars]
  rw [Text.trimChars, hstart, hend, Text.trimEnd_append_blanks (by decide) hafter]
  rfl

theorem pure?_eq_some_iff : pure? text = some p ↔
    ∃ body, IsOneGroup (pieces text) body ∧ String.ofList (Text.trimChars body) = p := by
  constructor
  · intro h
    unfold pure? at h
    split at h
    · next body hpieces =>
      have hbody : IsBody body := isBody_of_mem_piecesFrom (hpieces ▸ List.mem_singleton_self _)
      have htrim : Text.trimChars text.toList = Piece.chars (.group body) := by
        have hjoined := joined_pieces (Text.trim text)
        rw [hpieces] at hjoined
        rw [← Text.toList_trim, ← hjoined]
        simp [joined]
      rcases Text.exists_trimEnd_append (Text.trimStart text.toList) with ⟨after, hend, hafter⟩
      have htext : text.toList =
          text.toList.takeWhile Text.isBlank ++ (Piece.chars (.group body) ++ after) := by
        rw [← htrim, Text.trimChars, ← hend]
        exact List.takeWhile_append_dropWhile.symm
      have hbefore : ∀ c ∈ text.toList.takeWhile Text.isBlank, Text.isBlank c = true :=
        List.all_eq_true.mp List.all_takeWhile
      refine ⟨body, ⟨_, after, hbefore, hafter, ?_⟩, Option.some.inj h⟩
      rw [← piecesFrom_oneGroup hbody hbefore hafter, ← htext, pieces]
    · cases h
  · intro h
    rcases h with ⟨body, ⟨before, after, hbefore, hafter, hpieces⟩, rfl⟩
    have hmem : Piece.group body ∈ pieces text := by simp [hpieces]
    have hbody : IsBody body := isBody_of_mem_piecesFrom hmem
    have htext : text.toList = before ++ (Piece.chars (.group body) ++ after) := by
      have hjoined := joined_pieces text
      rw [hpieces] at hjoined
      rw [← hjoined]
      simp [joined, Piece.chars, List.flatMap_map]
    have htrim : pieces (Text.trim text) = [.group body] := by
      rw [pieces, Text.toList_trim, htext, trimChars_oneGroup body hbefore hafter]
      simpa [piecesFrom] using piecesFrom_group hbody []
    simp [pure?, htrim]

/-! ## Relabelled texts -/

/-- Only characters are redirected to characters. -/
theorem eq_of_redirect_eq_chars {ps : List Piece} {cs : List Char}
    (h : ps.map (Piece.redirect old new) = cs.map Piece.char) : ps = cs.map Piece.char := by
  induction cs generalizing ps with
  | nil => exact List.map_eq_nil_iff.mp h
  | cons c cs ih =>
    rcases List.map_eq_cons_iff.mp h with ⟨piece, rest, rfl, hpiece, hrest⟩
    cases piece with
    | char d =>
      rw [ih hrest, List.map_cons, ← hpiece]
      rfl
    | group body =>
      simp only [Piece.redirect] at hpiece
      split at hpiece <;> cases hpiece

section

variable (hnew : IsClean new)
include hnew

/-- A redirected group is a group, with the path renamed that it names. -/
theorem exists_redirect_group (old : String) (body : List Char) :
    ∃ body', Piece.redirect old new (.group body) = .group body' ∧
      String.ofList (Text.trimChars body') = if String.ofList (Text.trimChars body) = old then new
        else String.ofList (Text.trimChars body) := by
  by_cases hnames : String.ofList (Text.trimChars body) = old
  · exact ⟨new.toList, by simp [Piece.redirect, hnames], by rw [if_pos hnames]; exact hnew.trim⟩
  · exact ⟨body, by simp [Piece.redirect, hnames], (if_neg hnames).symm⟩

theorem body?_redirect (old : String) (piece : Piece) :
    (piece.redirect old new).body? = piece.body?.map fun p => if p = old then new else p := by
  cases piece with
  | char c => rfl
  | group body =>
    rcases exists_redirect_group hnew old body with ⟨body', hgroup, htrim⟩
    rw [hgroup]
    exact congrArg some htrim

theorem fill_redirect (old : String) (f : String → String) (piece : Piece) :
    (piece.redirect old new).fill f = piece.fill fun p => f (if p = old then new else p) := by
  cases piece with
  | char c => rfl
  | group body =>
    rcases exists_redirect_group hnew old body with ⟨body', hgroup, htrim⟩
    rw [hgroup]
    exact congrArg (fun p => (f p).toList) htrim

/-- Redirected pieces are one group exactly if the pieces are. -/
theorem isOneGroup_redirect {ps : List Piece} :
    (∃ body, IsOneGroup (ps.map (Piece.redirect old new)) body ∧
      String.ofList (Text.trimChars body) = p) ↔
    ∃ body, IsOneGroup ps body ∧
      (if String.ofList (Text.trimChars body) = old then new
        else String.ofList (Text.trimChars body)) = p := by
  constructor
  · intro h
    rcases h with ⟨body', ⟨before, after, hbefore, hafter, hpieces⟩, rfl⟩
    rcases List.map_eq_append_iff.mp hpieces with ⟨ps₁, rest, rfl, hfirst, hrest⟩
    rcases List.map_eq_cons_iff.mp hrest with ⟨piece, ps₂, rfl, hpiece, hlast⟩
    cases piece with
    | char c => cases hpiece
    | group body =>
      rcases exists_redirect_group hnew old body with ⟨body'', hgroup, htrim⟩
      rw [hpiece] at hgroup
      cases hgroup
      refine ⟨body, ⟨before, after, hbefore, hafter, ?_⟩, htrim.symm⟩
      rw [eq_of_redirect_eq_chars hfirst, eq_of_redirect_eq_chars hlast]
  · intro h
    rcases h with ⟨body, ⟨before, after, hbefore, hafter, rfl⟩, rfl⟩
    rcases exists_redirect_group hnew old body with ⟨body', hgroup, htrim⟩
    refine ⟨body', ⟨before, after, hbefore, hafter, ?_⟩, htrim⟩
    rw [List.map_append, List.map_cons, hgroup, List.map_map, List.map_map]
    rfl

end

section

variable (hold : old ≠ "") (hnew : IsClean new) (hbare : Text.trim text ≠ old)
  (h : Relabels old new text text')
include hold hnew hbare h

omit hnew in
theorem Relabels.pieces_eq : pieces text' = (pieces text).map (Piece.redirect old new) := by
  rw [Relabels, if_neg hbare] at h
  rw [h]
  exact List.map_congr_left fun piece _ => (Piece.redirect_eq hold piece).symm

/-- A text is one group before it is relabelled exactly if it is one afterwards. -/
theorem Relabels.pure? :
    pure? text' = (pure? text).map fun p => if p = old then new else p := by
  refine Option.ext fun p => ?_
  rw [pure?_eq_some_iff, h.pieces_eq hold hbare, isOneGroup_redirect hnew]
  simp only [Option.map_eq_some_iff, pure?_eq_some_iff]
  constructor
  · rintro ⟨body, hbody, hp⟩
    exact ⟨_, ⟨body, hbody, rfl⟩, hp⟩
  · rintro ⟨_, ⟨body, hbody, rfl⟩, hp⟩
    exact ⟨body, hbody, hp⟩

theorem Relabels.bodies :
    bodies text' = (bodies text).map fun p => if p = old then new else p := by
  rw [Reference.bodies, h.pieces_eq hold hbare, List.filterMap_map, Reference.bodies,
    List.map_filterMap]
  exact List.filterMap_congr fun piece _ => body?_redirect hnew old piece

theorem Relabels.fill (f : String → String) :
    fill f text' = fill (fun p => f (if p = old then new else p)) text := by
  rw [Reference.fill, h.pieces_eq hold hbare, List.flatMap_map, Reference.fill]
  congr 1
  exact List.flatMap_congr fun piece _ => fill_redirect hnew old f piece

end

end Reference
end DesignTokens
