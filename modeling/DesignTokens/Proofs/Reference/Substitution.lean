import DesignTokens.Token.Reference
import Mathlib.Data.List.Basic

/-!
# Filling in a text

A text is filled in exactly if the lookup answers for the trimmed body of every brace group, also a
blank one, and the new text depends on nothing else that is looked up.  With a lookup that always
answers this is a function on texts, `fill`.
-/

namespace DesignTokens

namespace Reference

variable {text : String} {lookup lookup' : String → Option String}

/-- The trimmed body of a brace group, also if it is blank. -/
def Piece.body? : Piece → Option String
  | .char _ => none
  | .group body => some (String.ofList (Text.trimChars body))

/-- The trimmed bodies of the brace groups of a text. -/
def bodies (text : String) : List String := (pieces text).filterMap Piece.body?

/-- The embedded references are the trimmed bodies that are not blank. -/
theorem embedded_eq_filter_bodies (text : String) :
    embedded text = (bodies text).filter fun p => p ≠ "" := by
  rw [embedded, bodies, List.filter_filterMap]
  refine List.filterMap_congr fun piece _ => ?_
  cases piece with
  | char c => rfl
  | group body =>
    by_cases hblank : String.ofList (Text.trimChars body) = "" <;>
      simp [Piece.path?, Piece.body?, hblank, Option.filter]

theorem isSome_substitute?_iff :
    (substitute? text lookup).isSome = true ↔ ∀ p ∈ bodies text, (lookup p).isSome = true := by
  unfold substitute? bodies
  rw [Option.isSome_map]
  induction pieces text with
  | nil => simp
  | cons piece ps ih =>
    cases piece with
    | char c =>
      have hhead : List.filterMap Piece.body? (.char c :: ps) = ps.filterMap Piece.body? := rfl
      rw [hhead, ← ih, List.mapM_cons]
      cases ps.mapM (Piece.substituted? lookup) <;> simp [Piece.substituted?]
    | group body =>
      have hhead : List.filterMap Piece.body? (.group body :: ps) =
          String.ofList (Text.trimChars body) :: ps.filterMap Piece.body? := rfl
      rw [hhead, List.forall_mem_cons, ← ih, List.mapM_cons]
      cases hbody : lookup (String.ofList (Text.trimChars body)) <;>
        cases ps.mapM (Piece.substituted? lookup) <;> simp [Piece.substituted?, hbody]

/-- Only what is looked up for the bodies matters. -/
theorem substitute?_congr (h : ∀ p ∈ bodies text, lookup p = lookup' p) :
    substitute? text lookup = substitute? text lookup' := by
  have hpiece : ∀ piece ∈ pieces text,
      piece.substituted? lookup = piece.substituted? lookup' := by
    intro piece hpiece
    cases piece with
    | char c => rfl
    | group body =>
      have hbody := h _ (List.mem_filterMap.mpr ⟨_, hpiece, rfl⟩)
      simp only [Piece.substituted?, hbody]
  have hmap : ∀ ps : List Piece,
      (∀ piece ∈ ps, piece.substituted? lookup = piece.substituted? lookup') →
      ps.mapM (Piece.substituted? lookup) = ps.mapM (Piece.substituted? lookup') := by
    intro ps hps
    induction ps with
    | nil => rfl
    | cons piece ps ih =>
      rw [List.mapM_cons, List.mapM_cons, hps _ List.mem_cons_self,
        ih fun q hq => hps q (List.mem_cons_of_mem _ hq)]
  rw [substitute?, substitute?, hmap _ hpiece]

/-! ## Texts that are filled in -/

/-- The characters that stand for a piece when its group is filled in. -/
def Piece.fill (f : String → String) : Piece → List Char
  | .char c => [c]
  | .group body => (f (String.ofList (Text.trimChars body))).toList

/-- The text with every group replaced by the text that its trimmed body stands for. -/
def fill (f : String → String) (text : String) : String :=
  String.ofList ((pieces text).flatMap (Piece.fill f))

variable {f f' : String → String}

/-- A lookup that always answers fills the text in. -/
theorem substitute?_some (f : String → String) (text : String) :
    substitute? text (fun p => some (f p)) = some (fill f text) := by
  have hpieces : ∀ ps : List Piece,
      ps.mapM (Piece.substituted? fun p => some (f p)) = some (ps.map (Piece.fill f)) := by
    intro ps
    induction ps with
    | nil => rfl
    | cons piece ps ih =>
      have hpiece : piece.substituted? (fun p => some (f p)) = some (piece.fill f) := by
        cases piece with
        | char c => rfl
        | group body => rfl
      rw [List.mapM_cons, hpiece, ih]
      rfl
  rw [substitute?, hpieces, Option.map_some, ← List.flatMap_def, fill]

theorem fill_congr (h : ∀ p ∈ bodies text, f p = f' p) : fill f text = fill f' text := by
  apply Option.some.inj
  rw [← substitute?_some, ← substitute?_some]
  exact substitute?_congr fun p hp => congrArg some (h p hp)

/-- A text without groups is filled in as it is. -/
theorem fill_of_bodies_eq_nil (h : bodies text = []) : fill f text = text := by
  have hchars : ∀ ps : List Piece, ps.filterMap Piece.body? = [] →
      ps.flatMap (Piece.fill f) = ps.flatMap Piece.chars := by
    intro ps hps
    induction ps with
    | nil => rfl
    | cons piece ps ih =>
      cases piece with
      | char c => rw [List.flatMap_cons, List.flatMap_cons, ih hps]; rfl
      | group body => cases hps
  rw [fill, hchars _ h]
  exact joined_pieces text

end Reference

end DesignTokens
