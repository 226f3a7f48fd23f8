import DesignTokens.Proofs.Links.Cycles
import DesignTokens.Proofs.Reference.Substitution
import DesignTokens.Proofs.Store.Redirect

/-!
# Where a reference is recognised

Whether a value refers to a path is asked in several places: for the links of the graph, for the
referrers of a token that moves, for the redirection of its references, and when a text is filled
in.  The referrers are always those whose texts a redirection changes.  The graph sees the same
references between braces, and a path by itself only if it is bare, that is if it is not empty and
has neither blanks nor a brace group of its own.  A text is filled in if the lookup answers for
all its references, and for the empty path where it has a blank group.
-/

namespace DesignTokens

namespace Reference

variable {path text q : String}

/-- A path that the graph recognises where it is the whole text: it is not empty, has no blanks
and embeds no references. -/
def IsBare (path : String) : Prop :=
  path ≠ "" ∧ Text.hasBlank path = false ∧ embedded path = []

instance : DecidablePred IsBare := fun _ => inferInstanceAs (Decidable (_ ∧ _))

theorem IsClean.isBare (h : IsClean path) : IsBare path := ⟨h.1, h.hasBlank, h.embedded⟩

/-- The trimmed bodies of the groups are the embedded references and, where a body is blank, the
empty path. -/
theorem mem_bodies_iff : q ∈ bodies text ↔ q ∈ embedded text ∨ q = "" ∧ "" ∈ bodies text := by
  have hembedded : q ∈ embedded text ↔ q ≠ "" ∧ q ∈ bodies text := by
    rw [embedded_eq_filter_bodies, List.mem_filter, decide_eq_true_eq, and_comm]
  rw [hembedded]
  by_cases hq : q = ""
  · simp [hq]
  · simp [hq]

/-- A text is filled in exactly if the lookup answers for every embedded reference, and also for
the empty path if some group is blank. -/
theorem isSome_substitute?_iff_embedded {lookup : String → Option String} :
    (substitute? text lookup).isSome = true ↔
      (∀ q ∈ embedded text, (lookup q).isSome = true) ∧
        ("" ∈ bodies text → (lookup "").isSome = true) := by
  rw [isSome_substitute?_iff]
  constructor
  · intro hall
    exact ⟨fun q hq => hall q (mem_bodies_iff.mpr (.inl hq)), hall ""⟩
  · rintro ⟨hembedded, hblank⟩ q hq
    rcases mem_bodies_iff.mp hq with hq | ⟨rfl, hq⟩
    · exact hembedded q hq
    · exact hblank hq

end Reference

open Reference

namespace Token

variable {t : Token} {known : String → Bool} {p : String}

/-- The value of the token has the path between braces. -/
def Embeds (t : Token) (p : String) : Prop :=
  ∃ y, t.value.text? = some y ∧ p ∈ embedded y

/-- Of the references to a known path other than its own, a token has those as targets that stand
between braces, and the others if the path is bare. -/
theorem mem_targets_iff_references (hne : t.path ≠ p) (hknown : known p = true) :
    p ∈ t.targets known ↔ t.references p = true ∧ (IsBare p ∨ t.Embeds p) := by
  rw [mem_targets, references_iff, mentions_iff]
  constructor
  · rintro ⟨y, hy, hembedded | ⟨hnone, rfl, hnotEmpty, _, hblank, _⟩⟩
    · exact ⟨⟨hne, y, hy, .inr hembedded⟩, .inr ⟨y, hy, hembedded⟩⟩
    · exact ⟨⟨hne, y, hy, .inl rfl⟩, .inl ⟨hnotEmpty, hblank, by rw [embedded_trim, hnone]⟩⟩
  · rintro ⟨⟨_, y, hy, hmention⟩, hseen⟩
    refine ⟨y, hy, ?_⟩
    rcases hmention with rfl | hembedded
    · rcases hseen with ⟨hnotEmpty, hblank, hnone⟩ | ⟨y', hy', hembedded⟩
      · rw [embedded_trim] at hnone
        exact .inr ⟨hnone, rfl, hnotEmpty, hne.symm, hblank, hknown⟩
      · rw [hy] at hy'
        cases hy'
        exact .inl hembedded
    · exact .inl hembedded

/-- The targets of a token depend on what is known only at the paths that it refers to. -/
theorem targets_congr {known' : String → Bool}
    (h : ∀ q, t.references q = true → known q = known' q) : t.targets known = t.targets known' := by
  unfold targets
  cases ht : t.value.text? with
  | none => rfl
  | some y =>
    by_cases hnone : embedded y = []
    · dsimp only
      rw [extract_of_not_embedded hnone, extract_of_not_embedded hnone]
      -- The text by itself is no target if it is the token's own path.
      by_cases hown : Text.trim y = t.path
      · simp [hown]
      · have href : t.references (Text.trim y) = true :=
          references_iff.mpr ⟨Ne.symm hown, mentions_iff.mpr ⟨y, ht, .inl rfl⟩⟩
        rw [h _ href]
    · dsimp only
      rw [extract_of_embedded hnone, extract_of_embedded hnone]

/-- A token refers to a path exactly if its text changes when the path is redirected. -/
theorem references_iff_isSome_redirect? (hne : t.path ≠ p) (new : String) :
    t.references p = true ↔
      ∃ y, t.value.text? = some y ∧ (redirect? y p new).isSome = true := by
  rw [references_iff, mentions]
  simp only [isSome_redirect?, Option.any_eq_true]
  exact and_iff_right hne

end Token

namespace Store

variable {locked : String → Bool}

/-- For a token and another path of its store: the token refers to the path exactly if a
redirection of the path changes the token's text, and the path is among the token's targets exactly
if moreover it is bare or stands between braces.  And a text is filled in exactly if the lookup
answers for its embedded references and, where a group is blank, for the empty path. -/
theorem references_recognised {s : Store locked} {t : Token} {p : String} (hp : p ∈ s.paths)
    (hne : t.path ≠ p) (new : String) :
    (t.references p = true ↔
      ∃ y, t.value.text? = some y ∧ (redirect? y p new).isSome = true) ∧
    (p ∈ t.targets s.contains ↔ t.references p = true ∧ (IsBare p ∨ t.Embeds p)) ∧
    ∀ text lookup, (substitute? text lookup).isSome = true ↔
      (∀ q ∈ embedded text, (lookup q).isSome = true) ∧
        ("" ∈ bodies text → (lookup "").isSome = true) :=
  ⟨Token.references_iff_isSome_redirect? hne new,
    Token.mem_targets_iff_references hne (contains_iff.mpr hp),
    fun _ _ => isSome_substitute?_iff_embedded⟩

/-- A token whose whole value is the path of another one, which has a blank in it. -/
def blankInPath : OpenStore :=
  ⟨[{ path := "font.Open Sans", value := .text "sans" },
    { path := "heading.font", value := .text "font.Open Sans" }], by decide⟩

/-- The second token refers to the first and a redirection changes it, but the graph has no link
between them.  And a text whose only group is blank embeds no reference, and yet is not filled
in. -/
theorem references_recognised_blankInPath :
    ∃ t ∈ blankInPath.tokens, t.path = "heading.font" ∧ "font.Open Sans" ∈ blankInPath.paths ∧
      t.references "font.Open Sans" = true ∧
      (∃ y, t.value.text? = some y ∧
        (redirect? y "font.Open Sans" "font.sans").isSome = true) ∧
      "font.Open Sans" ∉ t.targets blankInPath.contains ∧
      embedded "\x7b \x7d" = [] ∧ (substitute? "\x7b \x7d" fun _ => none).isSome = false := by
  have hmem : "font.Open Sans" ∈ blankInPath.paths := by decide
  let t : Token := { path := "heading.font", value := .text "font.Open Sans" }
  have hne : t.path ≠ "font.Open Sans" := by decide
  have hrefers : t.references "font.Open Sans" = true := by decide +kernel
  obtain ⟨hredirect, htargets, hfilled⟩ := references_recognised hmem hne "font.sans"
  refine ⟨t, by simp [blankInPath, t], rfl, hmem, hrefers, hredirect.mp hrefers, ?_,
    by decide +kernel, ?_⟩
  · intro htarget
    have hbare : ¬ IsBare "font.Open Sans" := by decide +kernel
    rcases (htargets.mp htarget).2 with hseen | ⟨y, hy, hembedded⟩
    · exact hbare hseen
    · cases hy
      exact absurd hembedded (by decide +kernel)
  · rw [Bool.eq_false_iff]
    intro hsome
    have hblank : "" ∈ bodies "\x7b \x7d" := by decide +kernel
    cases ((hfilled _ _).mp hsome).2 hblank

end Store

end DesignTokens
