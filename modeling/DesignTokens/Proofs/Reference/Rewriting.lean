import DesignTokens.Proofs.Reference.Groups
import DesignTokens.Proofs.Reference.Relabelling

/-!
# What a redirection rewrites

The references of a text are found wherever a group opens, and redirecting them rewrites the groups
that name the old path and not a character more.  The new path need only be referable: it may have
blanks inside.  About the old path nothing is assumed.  If it has braces, or blanks around it, then
no group names it and it is found by itself or not at all.
-/

namespace DesignTokens.Reference

variable {old new text text' : String}

/-! ## Stretches between groups -/

/-- The characters of a first stretch and of groups with a stretch behind each of them. -/
def strung (first : List Char) (spans : List (List Char × List Char)) : List Char :=
  first ++ spans.flatMap fun span => '{' :: span.1 ++ '}' :: span.2

/-- The second text is the first one with the bodies of some groups replaced by the new path.  These
groups name the old path, and they are as many as the references to it. -/
structure RewritesGroups (old new text text' : String) (first : List Char)
    (spans : List (List Char × List Char)) : Prop where
  all : spans.length = (embedded text).count old
  named : ∀ span ∈ spans, IsBody span.1 ∧ String.ofList (Text.trimChars span.1) = old
  before : text.toList = strung first spans
  after : text'.toList = strung first (spans.map fun span => (new.toList, span.2))

theorem strung_cons (first : List Char) (span : List Char × List Char)
    (spans : List (List Char × List Char)) :
    strung first (span :: spans) = first ++ Piece.chars (.group span.1) ++ strung span.2 spans := by
  simp [strung, Piece.chars]

theorem append_strung (cs first : List Char) (spans : List (List Char × List Char)) :
    cs ++ strung first spans = strung (cs ++ first) spans := by
  simp [strung]

/-- Pieces fall into the groups that name the old path and the stretches between these. -/
theorem exists_spans (hold : old ≠ "") (new : String) {ps : List Piece}
    (hbodies : ∀ body, Piece.group body ∈ ps → IsBody body) :
    ∃ first spans, spans.length = (ps.filterMap Piece.path?).count old ∧
      (∀ span ∈ spans, IsBody span.1 ∧ String.ofList (Text.trimChars span.1) = old) ∧
      ps.flatMap Piece.chars = strung first spans ∧
      (ps.map (Piece.redirect old new)).flatMap Piece.chars =
        strung first (spans.map fun span => (new.toList, span.2)) := by
  induction ps with
  | nil => exact ⟨[], [], rfl, by simp, rfl, rfl⟩
  | cons piece ps ih =>
    obtain ⟨first, spans, hall, hnamed, hbefore, hafter⟩ :=
      ih fun body hbody => hbodies body (List.mem_cons_of_mem _ hbody)
    -- A rewritten piece ends the stretch before it; any other one is taken into the stretch that
    -- the rest starts with.
    by_cases hpath : piece.path? = some old
    · obtain ⟨_, body, rfl, hbody⟩ := Piece.path?_eq_some_iff.mp hpath
      refine ⟨[], (body, first) :: spans, ?_, ?_, ?_, ?_⟩
      · rw [List.filterMap_cons_some hpath, List.count_cons_self, List.length_cons, hall]
      · exact List.forall_mem_cons.mpr ⟨⟨hbodies body List.mem_cons_self, hbody⟩, hnamed⟩
      · rw [List.flatMap_cons, hbefore, strung_cons, List.nil_append]
      · rw [List.map_cons, List.flatMap_cons, hafter, Piece.redirect_eq hold, if_pos hpath,
          List.map_cons, strung_cons, List.nil_append]
    · refine ⟨piece.chars ++ first, spans, ?_, hnamed, ?_, ?_⟩
      · rw [hall]
        cases hother : piece.path? with
        | none => rw [List.filterMap_cons_none hother]
        | some p =>
          have hne : p ≠ old := fun h => hpath (h ▸ hother)
          rw [List.filterMap_cons_some hother, List.count_cons_of_ne hne]
      · rw [List.flatMap_cons, hbefore, append_strung]
      · rw [List.map_cons, List.flatMap_cons, hafter, Piece.redirect_eq hold, if_neg hpath,
          append_strung]

theorem exists_rewritesGroups (h : redirect? text old new = some text')
    (hbare : Text.trim text ≠ old) :
    ∃ first spans, RewritesGroups old new text text' first spans := by
  rcases redirect?_eq_some_iff.mp h with ⟨hwhole, _⟩ | ⟨_, hmem, rfl⟩
  · exact absurd hwhole hbare
  · have hbodies : ∀ body, Piece.group body ∈ pieces text → IsBody body :=
      fun _ => isBody_of_mem_piecesFrom
    obtain ⟨first, spans, hall, hnamed, hbefore, hafter⟩ :=
      exists_spans (noBrace_of_mem_embedded hmem).1 new hbodies
    refine ⟨first, spans, hall, hnamed, ?_, ?_⟩
    · rw [← hbefore, pieces, flatMap_chars_piecesFrom]
    · rw [← hafter, joined, String.toList_ofList]

/-! ## Groups of the new text -/

/-- Redirected pieces have the groups of the pieces, with the bodies rewritten that name the old
path.  The places are others, since the new path can be longer or shorter. -/
theorem map_groupsFrom_redirect (old new : String) (start start' : Nat) (ps : List Piece) :
    (groupsFrom start' (ps.map (Piece.redirect old new))).map Prod.snd =
      (groupsFrom start ps).map fun g =>
        if String.ofList (Text.trimChars g.2) = old then new.toList else g.2 := by
  induction ps generalizing start start' with
  | nil => rfl
  | cons piece ps ih =>
    cases piece with
    | char c => exact ih (start + 1) (start' + 1)
    | group body =>
      by_cases hnames : String.ofList (Text.trimChars body) = old
      · simp only [List.map_cons, Piece.redirect, if_pos hnames, groupsFrom]
        exact congrArg _ (ih _ _)
      · simp only [List.map_cons, Piece.redirect, if_neg hnames, groupsFrom]
        exact congrArg _ (ih _ _)

/-- No group comes into being and none is lost. -/
theorem AreGroups.map_snd_of_redirect? {groups groups' : List (Nat × List Char)}
    (hgroups : AreGroups text groups) (hgroups' : AreGroups text' groups')
    (hnew : IsReferable new) (h : redirect? text old new = some text')
    (hbare : Text.trim text ≠ old) :
    groups'.map Prod.snd = groups.map fun g =>
      if String.ofList (Text.trimChars g.2) = old then new.toList else g.2 := by
  rcases redirect?_eq_some_iff.mp h with ⟨hwhole, _⟩ | ⟨_, _, rfl⟩
  · exact absurd hwhole hbare
  · rw [hgroups.unique (areGroups_pieces text), hgroups'.unique (areGroups_pieces _),
      pieces_joined_redirect hnew, map_groupsFrom_redirect]

/-! ## Exactness -/

/-- The embedded references of a text are what its groups name, from left to right and without the
blank ones.  A text is redirected exactly if it mentions the old path.  Then it mentions the new
path and the old one no more, and unless it was the old path by itself, its references are renamed,
its groups are the same but for the bodies that named the old path, and all characters outside the
rewritten groups stay. -/
theorem rewriting_exact :
    (∀ text, ∃ groups, AreGroups text groups ∧ embedded text =
      (groups.map fun g => String.ofList (Text.trimChars g.2)).filter fun p => p ≠ "") ∧
    ∀ text old new, IsReferable new → new ≠ old →
      (redirect? text old new = none ↔ mentions text old = false) ∧
      ∀ text', redirect? text old new = some text' →
        mentions text' old = false ∧ mentions text' new = true ∧
        (Text.trim text ≠ old →
          embedded text' = (embedded text).map (fun p => if p = old then new else p) ∧
          (∀ groups groups', AreGroups text groups → AreGroups text' groups' →
            groups'.map Prod.snd = groups.map fun g =>
              if String.ofList (Text.trimChars g.2) = old then new.toList else g.2) ∧
          ∃ first spans, RewritesGroups old new text text' first spans) := by
  refine ⟨fun text => ⟨_, areGroups_pieces text, (areGroups_pieces text).embedded_eq⟩, ?_⟩
  intro text old new hnew hne
  refine ⟨redirect?_eq_none_iff, fun text' h => ?_⟩
  refine ⟨not_mentions_of_redirect? hnew hne.symm h, mentions_of_redirect? hnew h, ?_⟩
  intro hbare
  rcases redirect?_cases hnew h with ⟨hwhole, _⟩ | ⟨_, hembedded⟩
  · exact absurd hwhole hbare
  · exact ⟨hembedded, fun _ _ hgroups hgroups' =>
      hgroups.map_snd_of_redirect? hgroups' hnew h hbare, exists_rewritesGroups h hbare⟩

/-- A group inside braces that belong to no group, a blank one, a padded one, and one that is not
closed. -/
def tangled : String := "\x7b\x7ba b\x7d x\x7d \x7b \x7d\x7b a b\x7d\x7bc"

def untangled : String := "\x7b\x7bd e\x7d x\x7d \x7b \x7d\x7bd e\x7d\x7bc"

theorem rewriting_exact_tangled :
    IsReferable "d e" ∧ "d e" ≠ "a b" ∧ redirect? tangled "a b" "d e" = some untangled ∧
      mentions untangled "a b" = false ∧ mentions untangled "d e" = true ∧
      Text.trim tangled ≠ "a b" ∧ embedded tangled = ["a b", "a b"] ∧
      embedded untangled = ["d e", "d e"] ∧
      ∃ first spans, RewritesGroups "a b" "d e" tangled untangled first spans := by
  have hnew : IsReferable "d e" := by decide
  have hne : "d e" ≠ "a b" := by decide
  have hredirected : redirect? tangled "a b" "d e" = some untangled := by decide
  have hbare : Text.trim tangled ≠ "a b" := by decide
  have hreferences : embedded tangled = ["a b", "a b"] := by decide
  obtain ⟨hold, hnow, hrest⟩ := (rewriting_exact.2 tangled "a b" "d e" hnew hne).2 _ hredirected
  obtain ⟨hembedded, _, hspans⟩ := hrest hbare
  rw [hreferences] at hembedded
  exact ⟨hnew, hne, hredirected, hold, hnow, hbare, hreferences, hembedded, hspans⟩

end DesignTokens.Reference
