import DesignTokens.Proofs.Reference.Pieces
import DesignTokens.Proofs.Reference.Substitution

/-!
# All brace groups of a text

A group opens at a place of a text when the text goes on there with an opening brace, some
characters that are no braces, and a closing brace.  Nothing is said about the places before.  The
cut of a text passes over each group that it finds and still misses none, since no group opens
inside another one: its body has no brace.
-/

namespace DesignTokens.Reference

/-- A brace group with this body opens at this place of the text. -/
def IsGroupAt (cs : List Char) (place : Nat) (body : List Char) : Prop :=
  IsBody body ∧ ('{' :: body ++ ['}']) <+: cs.drop place

/-- The groups of a text with the places where they open, from left to right. -/
structure AreGroups (text : String) (groups : List (Nat × List Char)) : Prop where
  mem_iff : ∀ place body, (place, body) ∈ groups ↔ IsGroupAt text.toList place body
  leftToRight : groups.Pairwise fun g h => g.1 < h.1

/-! ## Where groups open -/

section

variable {c : Char} {cs body : List Char} {place : Nat}

theorem isGroupAt_nil : ¬ IsGroupAt [] place body := by
  rintro ⟨_, hstarts⟩
  simp at hstarts

theorem isGroupAt_succ : IsGroupAt (c :: cs) (place + 1) body ↔ IsGroupAt cs place body := Iff.rfl

/-- At its start a text has the group that is continued behind the brace. -/
theorem isGroupAt_zero : IsGroupAt (c :: cs) 0 body ↔ c = '{' ∧ body? cs = some body := by
  constructor
  · rintro ⟨hbody, rest, hstarts⟩
    obtain ⟨rfl, rfl⟩ : '{' = c ∧ body ++ '}' :: rest = cs := by simpa using hstarts
    exact ⟨rfl, body?_append_close hbody rest⟩
  · rintro ⟨rfl, hfound⟩
    rcases body?_eq_some hfound with ⟨rest, rfl, _, _⟩
    exact ⟨isBody_of_body? hfound, rest, by simp⟩

/-- No group opens where there is no opening brace. -/
theorem isGroupAt_append_iff {before : List Char} (hopen : '{' ∉ before) :
    IsGroupAt (before ++ cs) place body ↔
      ∃ k, place = before.length + k ∧ IsGroupAt cs k body := by
  induction before generalizing place with
  | nil => simp
  | cons d before ih =>
    rw [List.mem_cons, not_or] at hopen
    cases place with
    | zero =>
      rw [List.cons_append, isGroupAt_zero]
      constructor
      · exact fun h => absurd h.1.symm hopen.1
      · rintro ⟨k, hk, _⟩
        exact absurd hk (by rw [List.length_cons]; omega)
    | succ place =>
      rw [List.cons_append, isGroupAt_succ, ih hopen.2]
      refine exists_congr fun k => and_congr_left fun _ => ?_
      rw [List.length_cons]
      omega

/-- In a text that starts with a group, no other one opens before its end. -/
theorem isGroupAt_group_iff {found : List Char} (hfound : IsBody found) :
    IsGroupAt (Piece.chars (.group found) ++ cs) place body ↔
      place = 0 ∧ body = found ∨ ∃ k, place = found.length + 2 + k ∧ IsGroupAt cs k body := by
  have htext : Piece.chars (.group found) ++ cs = '{' :: (found ++ ['}'] ++ cs) := by
    simp [Piece.chars]
  rw [htext]
  cases place with
  | zero =>
    rw [isGroupAt_zero, List.append_assoc]
    change _ ∧ body? (found ++ '}' :: cs) = some body ↔ _
    rw [body?_append_close hfound]
    constructor
    · rintro ⟨_, hsame⟩
      exact .inl ⟨rfl, (Option.some.inj hsame).symm⟩
    · rintro (⟨_, rfl⟩ | ⟨k, hk, _⟩)
      · exact ⟨rfl, rfl⟩
      · omega
  | succ place =>
    -- Neither the body nor the closing brace can open a group.
    have hopen : '{' ∉ found ++ ['}'] := by
      intro hmem
      rcases List.mem_append.mp hmem with hbody | hclose
      · exact absurd (hfound.2 '{' hbody) (by decide)
      · exact absurd (List.mem_singleton.mp hclose) (by decide)
    have hlength : (found ++ ['}']).length = found.length + 1 := by simp
    rw [isGroupAt_succ, isGroupAt_append_iff hopen, hlength]
    constructor
    · rintro ⟨k, rfl, hgroup⟩
      exact .inr ⟨k, by omega, hgroup⟩
    · rintro (⟨hzero, _⟩ | ⟨k, hk, hgroup⟩)
      · omega
      · exact ⟨k, by omega, hgroup⟩

/-- In a text that does not start with a group, all groups open behind its first character. -/
theorem isGroupAt_char_iff (hchar : c = '{' → body? cs = none) :
    IsGroupAt (c :: cs) place body ↔ ∃ k, place = k + 1 ∧ IsGroupAt cs k body := by
  cases place with
  | zero =>
    rw [isGroupAt_zero]
    constructor
    · rintro ⟨hc, hfound⟩
      rw [hchar hc] at hfound
      cases hfound
    · rintro ⟨k, hk, _⟩
      omega
  | succ place => simp [isGroupAt_succ]

end

/-! ## The groups of a cut -/

/-- The groups among some pieces with the places where they open, if the pieces start at a place. -/
def groupsFrom : Nat → List Piece → List (Nat × List Char)
  | _, [] => []
  | place, .char _ :: ps => groupsFrom (place + 1) ps
  | place, .group body :: ps => (place, body) :: groupsFrom (place + (body.length + 2)) ps

/-- The cut of a text has all groups that open anywhere in it, and no others. -/
theorem mem_groupsFrom_iff {cs body : List Char} {start place : Nat} :
    (place, body) ∈ groupsFrom start (piecesFrom 0 cs) ↔
      ∃ k, place = start + k ∧ IsGroupAt cs k body := by
  induction cs using cut_induction generalizing start with
  | nil => simp [piecesFrom, groupsFrom, isGroupAt_nil]
  | group found rest hfound ih =>
    rw [piecesFrom_group hfound, groupsFrom, List.mem_cons, ih, Prod.mk.injEq]
    simp only [isGroupAt_group_iff hfound]
    constructor
    · rintro (⟨rfl, rfl⟩ | ⟨k, rfl, hgroup⟩)
      · exact ⟨0, rfl, .inl ⟨rfl, rfl⟩⟩
      · exact ⟨found.length + 2 + k, by omega, .inr ⟨k, rfl, hgroup⟩⟩
    · rintro ⟨_, rfl, ⟨rfl, rfl⟩ | ⟨k, rfl, hgroup⟩⟩
      · exact .inl ⟨rfl, rfl⟩
      · exact .inr ⟨k, by omega, hgroup⟩
  | char c cs hchar ih =>
    rw [piecesFrom_char hchar, groupsFrom, ih]
    simp only [isGroupAt_char_iff hchar]
    constructor
    · rintro ⟨k, rfl, hgroup⟩
      exact ⟨k + 1, by omega, k, rfl, hgroup⟩
    · rintro ⟨_, rfl, k, rfl, hgroup⟩
      exact ⟨k, by omega, hgroup⟩

theorem le_of_mem_groupsFrom {start : Nat} {ps : List Piece} {g : Nat × List Char}
    (h : g ∈ groupsFrom start ps) : start ≤ g.1 := by
  induction ps generalizing start with
  | nil => cases h
  | cons piece ps ih =>
    cases piece with
    | char c => exact Nat.le_trans (Nat.le_succ start) (ih h)
    | group body =>
      rcases List.mem_cons.mp h with rfl | htail
      · exact Nat.le_refl start
      · exact Nat.le_trans (Nat.le_add_right start _) (ih htail)

theorem groupsFrom_pairwise (start : Nat) (ps : List Piece) :
    (groupsFrom start ps).Pairwise fun g h => g.1 < h.1 := by
  induction ps generalizing start with
  | nil => exact .nil
  | cons piece ps ih =>
    cases piece with
    | char c => exact ih (start + 1)
    | group body =>
      refine .cons (fun g hg => ?_) (ih _)
      have hbehind := le_of_mem_groupsFrom hg
      omega

theorem areGroups_pieces (text : String) : AreGroups text (groupsFrom 0 (pieces text)) where
  mem_iff place body := by
    rw [pieces, mem_groupsFrom_iff]
    simp
  leftToRight := groupsFrom_pairwise 0 _

/-- There is one way only to list the groups of a text. -/
theorem AreGroups.unique {text : String} {groups groups' : List (Nat × List Char)}
    (h : AreGroups text groups) (h' : AreGroups text groups') : groups = groups' := by
  -- Both lists have the same members, each once and in the same order.
  have hnodup : ∀ {gs : List (Nat × List Char)}, gs.Pairwise (fun g h => g.1 < h.1) → gs.Nodup :=
    fun hgs => hgs.imp fun hlt heq => absurd (congrArg Prod.fst heq) (Nat.ne_of_lt hlt)
  have hperm : groups.Perm groups' := by
    refine (List.perm_ext_iff_of_nodup (hnodup h.leftToRight) (hnodup h'.leftToRight)).mpr ?_
    rintro ⟨place, body⟩
    rw [h.mem_iff, h'.mem_iff]
  exact hperm.eq_of_pairwise (fun _ _ _ _ hlt hgt => absurd hlt (Nat.lt_asymm hgt)) h.leftToRight
    h'.leftToRight

/-! ## References -/

/-- What the groups of a cut name, without the places. -/
theorem map_groupsFrom (start : Nat) (ps : List Piece) :
    ((groupsFrom start ps).map fun g => String.ofList (Text.trimChars g.2)) =
      ps.filterMap Piece.body? := by
  induction ps generalizing start with
  | nil => rfl
  | cons piece ps ih =>
    cases piece with
    | char c => exact ih (start + 1)
    | group body => exact congrArg (String.ofList (Text.trimChars body) :: ·) (ih _)

/-- The groups of a text name its embedded references, except for blank ones. -/
theorem AreGroups.embedded_eq {text : String} {groups : List (Nat × List Char)}
    (h : AreGroups text groups) : embedded text =
      (groups.map fun g => String.ofList (Text.trimChars g.2)).filter fun p => p ≠ "" := by
  rw [embedded_eq_filter_bodies, h.unique (areGroups_pieces text), map_groupsFrom, bodies]

end DesignTokens.Reference
