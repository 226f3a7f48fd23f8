import DesignTokens.Proofs.Reference.Pasting
import DesignTokens.Proofs.Store.Needs

/-!
# Values written into the survivor

When the survivor of a merge refers to the source, the source's value takes the place of the
reference.  The raw value is what is taken over.  A survivor that is one whole reference to the
source comes to the same value as before, whatever the source refers to.  Among other text the raw
text of the source is pasted in, and the survivor comes to the same value if this text, with its own
groups filled in, is the text of the value that the source comes to.

Pasted text is read anew: a path by itself is no reference any more once it stands among other
text, and so a survivor may lose the value that it had.
-/

namespace DesignTokens

open Relation Reference

namespace Token

variable {t u : Token} {known : String → Bool} {source y : String}

/-- A whole reference takes the value over. -/
theorem inline_of_whole (h : t.dependence known = .whole source) (v : Value) :
    t.inline source v = { t with value := v, resolved := none } := by
  rcases text_of_whole h with ⟨y, hy, hform⟩
  have hwhole : Text.trim y = source ∨ pure? y = some source :=
    hform.imp And.right And.right
  simp [inline, hy, hwhole]

/-- In any other text the references to the source are replaced by the text of the value. -/
theorem inline_of_filled (hform : t.dependence known = .filled) (hy : t.value.text? = some y)
    (hmem : source ∈ embedded y) (v : Value) : t.inline source v =
      { t with value := t.value.withText (paste source v.render y), resolved := none } := by
  have hpart : ¬ (Text.trim y = source ∨ pure? y = some source) := by
    intro hwhole
    rcases hwhole with hbare | hpure
    · exact trim_ne_of_mem_embedded hmem hbare
    · rw [dependence_of_embedded hy hmem, hpure] at hform
      cases hform
  simp only [inline, hy, if_neg hpart, substitute?_some]
  rfl

/-- Tokens of one value have the same targets if neither has the other's path as a target: their
paths only matter for a text that is one of them. -/
theorem targets_eq_of_value_eq (hvalue : t.value = u.value) (ht : u.path ∉ t.targets known)
    (hu : t.path ∉ u.targets known) : t.targets known = u.targets known := by
  cases hy : u.value.text? with
  | none => simp [targets, hvalue, hy]
  | some y =>
    simp only [targets, hvalue, hy] at ht hu ⊢
    by_cases hnone : embedded y = []
    · simp only [extract_of_not_embedded hnone] at ht hu ⊢
      by_cases hbare : Text.trim y ≠ "" ∧ Text.hasBlank (Text.trim y) = false ∧
          known (Text.trim y) = true
      · by_cases hpath : Text.trim y = t.path
        · by_cases hown : Text.trim y = u.path
          · simp [← hpath, ← hown]
          · simp [hbare, ← hpath, hown] at hu
        · by_cases hown : Text.trim y = u.path
          · simp [hbare, hpath, ← hown] at ht
          · simp [hbare, hpath, hown]
      · -- No owner makes a target of such a text.
        have hdead : ∀ owner, ¬ (Text.trim y ≠ "" ∧ Text.trim y ≠ owner ∧
            (!Text.hasBlank (Text.trim y)) = true ∧ known (Text.trim y) = true) :=
          fun owner h => hbare ⟨h.1, by simpa using h.2.2.1, h.2.2.2⟩
        rw [if_neg (hdead _), if_neg (hdead _)]
    · rw [extract_of_embedded hnone, extract_of_embedded hnone]

end Token

namespace Store

variable {locked : String → Bool} {s : Store locked} {t t' u : Token} {q text : String}
  {v w : Value}

/-! ## A whole reference -/

/-- Nothing that a survivor at a known path needs leads back to it, and so does nothing that is
needed by what it needs. -/
theorem Known.not_reaches_of_needs (ht : t ∈ s.tokens) (h : s.Known t.path) (hu : u ∈ s.tokens)
    (hneeds : u.path ∈ t.needs s.contains) (hq : q ∈ u.needs s.contains) :
    ¬ ReflTransGen s.Needs q t.path :=
  fun hback => h.not_reaches ht hneeds (.head ((needs_iff_of_mem hu).mpr hq) hback)

/-- A token with the value of another one, in the place of a token that needs that one, comes to
what the other comes to. -/
theorem Yields.of_value_eq (ht : t ∈ s.tokens) (hu : u ∈ s.tokens) (hknown : s.Known t.path)
    (hneeds : u.path ∈ t.needs s.contains) (hv : s.ComesTo u.path v) (hpath : t'.path = t.path)
    (hvalue : t'.value = u.value) :
    s.Yields t' v ∧ ∀ q ∈ t'.needs s.contains, ¬ ReflTransGen s.Needs q t.path := by
  have hraw : t'.raw = u.raw := by rw [Token.raw, hvalue, Token.raw]
  have huv : s.Yields u v := (comesTo_iff_yields hu).mp hv
  -- The source does not need the survivor.
  have hnot : t'.path ∉ u.targets s.contains := by
    intro hmem
    rw [hpath] at hmem
    exact hknown.not_reaches_of_needs ht hu hneeds (Token.mem_needs_of_mem_targets hmem) .refl
  by_cases hself : u.path ∈ t'.targets s.contains
  · rcases Token.mem_targets.mp hself with ⟨y, hy, hcase⟩
    have hbare : embedded y = [] := by
      rcases hcase with hmem | ⟨hnone, _⟩
      · -- The source has no group that names itself.
        have hown : u.path ∈ u.targets s.contains :=
          Token.mem_targets.mpr ⟨y, hvalue ▸ hy, .inl hmem⟩
        exact absurd .refl (hv.known.not_reaches hu (Token.mem_needs_of_mem_targets hown))
      · exact hnone
    have hform := Token.dependence_of_bare hy hbare hself
    refine ⟨.whole hform hv, fun q hq => ?_⟩
    obtain rfl : q = u.path := by simpa [Token.needs, hform] using hq
    exact hknown.not_reaches ht hneeds
  · have htargets := Token.targets_eq_of_value_eq hvalue hself hnot
    have hform : t'.dependence s.contains = u.dependence s.contains := by
      rw [Token.dependence, htargets, hraw, Token.dependence]
    have hsame : t'.needs s.contains = u.needs s.contains := by
      rw [Token.needs, hform, hraw, Token.needs]
    refine ⟨?_, fun q hq => hknown.not_reaches_of_needs ht hu hneeds (hsame ▸ hq)⟩
    cases huv with
    | independent hind =>
      rw [← hvalue]
      exact .independent (hform.trans hind)
    | whole hwhole htarget => exact .whole (hform.trans hwhole) htarget
    | filled hfilled htext => exact .filled (hform.trans hfilled) (hraw ▸ htext)

/-! ## A reference among other text -/

/-- The text of the token can stand for its value in other texts: its braces all belong to groups
that name what the token needs, and filled in it is the text of the value. -/
structure StandsForValue (s : Store locked) (u : Token) : Prop where
  tidy : IsTidy u.raw
  groups : ∀ q ∈ bodies u.raw, q ∈ u.needs s.contains
  fills : ∀ v, s.ComesTo u.path v → s.Fills u.raw v.render

/-- A token without references stands for its value if its text has no braces. -/
theorem StandsForValue.of_independent (hu : u ∈ s.tokens)
    (hform : u.dependence s.contains = .independent)
    (hplain : ∀ c ∈ u.raw.toList, isBrace c = false) : s.StandsForValue u := by
  rcases isTidy_of_noBrace hplain with ⟨htidy, hnone⟩
  refine ⟨htidy, fun q hq => ?_, fun v hv => ?_⟩
  · rw [hnone] at hq
    cases hq
  · obtain rfl : v = u.value := hv.unique (.independent hu hform)
    exact ⟨fun _ => u.value, by simp [hnone], fill_of_bodies_eq_nil hnone⟩

/-- A text with the text of the source pasted in is filled in as it was before. -/
theorem Fills.paste (hu : s.StandsForValue u) (hv : s.ComesTo u.path v)
    (htidy : IsTidy t.raw) (h : s.Fills t.raw text) :
    s.Fills (paste u.path u.raw t.raw) text := by
  rcases h with ⟨values, hbodies, rfl⟩
  rcases hu.fills v hv with ⟨values', hbodies', hfilled⟩
  let all (p : String) : Value := if p ∈ bodies t.raw then values p else values' p
  have hall : ∀ p, p ∈ bodies u.raw ∨ p ∈ bodies t.raw → s.ComesTo p (all p) := by
    intro p hp
    by_cases hin : p ∈ bodies t.raw
    · simpa [all, hin] using hbodies p hin
    · simpa [all, hin] using hbodies' p (hp.resolve_right hin)
  have hinner : fill (fun p => (all p).render) u.raw = v.render :=
    Fills.unique ⟨all, fun p hp => hall p (.inl hp), rfl⟩ ⟨values', hbodies', hfilled⟩
  refine ⟨all, fun p hp => hall p (mem_bodies_paste htidy hu.tidy hp), ?_⟩
  rw [fill_paste htidy hu.tidy]
  refine fill_congr fun p hp => ?_
  by_cases hsource : p = u.path
  · subst hsource
    rw [if_pos rfl, hinner, (hbodies u.path hp).unique hv]
  · simp [hsource, all, hp]

/-- With the text of the source pasted in, the survivor needs nothing that leads back to it.  As long
as its text is no whole reference it has the value that it had, or the one that is read as that. -/
theorem Yields.of_paste (ht : t ∈ s.tokens) (hu : u ∈ s.tokens)
    (hform : t.dependence s.contains = .filled) (hneeds : u.path ∈ t.needs s.contains)
    (htidy : IsTidy t.raw) (hstands : s.StandsForValue u) (hw : s.ComesTo t.path w)
    (htext' : t'.value.text? = some (paste u.path u.raw t.raw)) :
    (t'.dependence s.contains = .filled →
      s.Yields t' w ∧ ∀ q ∈ t'.needs s.contains, ¬ ReflTransGen s.Needs q t.path) ∧
    (t'.dependence s.contains = .independent → w = Value.infer t'.raw) := by
  have hknown := hw.known
  have hraw : t'.raw = paste u.path u.raw t.raw := Value.render_of_text? htext'
  rcases (hknown.of_needs ht hneeds).exists_comesTo with ⟨v, hv⟩
  -- The old value is what the filled text is read as.
  have hold : ∃ text, s.Fills t.raw text ∧ w = Value.infer text := by
    cases (comesTo_iff_yields ht).mp hw with
    | independent hform' => simp [hform] at hform'
    | whole hform' => simp [hform] at hform'
    | filled _ htext => exact ⟨_, htext, rfl⟩
  rcases hold with ⟨text, htext, rfl⟩
  have hfills : s.Fills t'.raw text := hraw ▸ Fills.paste hstands hv htidy htext
  constructor
  · intro hfilled
    refine ⟨.filled hfilled hfills, fun q hq => ?_⟩
    have hbody : q ∈ bodies (paste u.path u.raw t.raw) := by
      simpa [Token.needs, hfilled, hraw] using hq
    rcases mem_bodies_paste htidy hstands.tidy hbody with hinner | houter
    · exact hknown.not_reaches_of_needs ht hu hneeds (hstands.groups q hinner)
    · exact hknown.not_reaches ht (by simpa [Token.needs, hform] using houter)
  · intro hindependent
    rcases hfills with ⟨values, _, rfl⟩
    -- Every group of the tidy text would be a reference.
    have hnone : bodies t'.raw = [] := by
      refine List.eq_nil_iff_forall_not_mem.mpr fun p hp => ?_
      rw [hraw] at hp
      have hmem := (isTidy_paste htidy hstands.tidy u.path).mem_embedded hp
      have htarget : p ∈ t'.targets s.contains := Token.mem_targets.mpr ⟨_, htext', .inl hmem⟩
      rw [Token.dependence_eq_independent_iff.mp hindependent] at htarget
      cases htarget
    rw [fill_of_bodies_eq_nil hnone]

/-! ## The store after inlining -/

/-- What the survivor comes to once its references to a source are replaced by the source's value.

It comes to a value exactly if its new value yields this one among the old tokens, and needs nothing
that leads back to the survivor.  If it was one whole reference to the source, then it comes to what
it came to before.  If it needed the source among other text, and that text is tidy and the text of
the source stands for its value, then it still does as long as it refers to anything; once it refers
to nothing, the old value is what its new text is read as. -/
theorem inline_keeps_meaning (ht : t ∈ s.tokens) (hu : u ∈ s.tokens) (hknown : s.Known t.path) :
    ∃ w, s.computed? t.path = some w ∧
      (∀ v, (s.inline t.path u.path).computed? t.path = some v ↔
        s.Yields (t.inline u.path u.value) v ∧
          ∀ q ∈ (t.inline u.path u.value).needs s.contains, ¬ ReflTransGen s.Needs q t.path) ∧
      (t.dependence s.contains = .whole u.path →
        (s.inline t.path u.path).computed? t.path = some w) ∧
      (t.dependence s.contains = .filled → u.path ∈ t.needs s.contains → IsTidy t.raw →
        s.StandsForValue u →
        ((t.inline u.path u.value).dependence s.contains = .filled →
          (s.inline t.path u.path).computed? t.path = some w) ∧
        ((t.inline u.path u.value).dependence s.contains = .independent →
          (s.inline t.path u.path).computed? t.path = some (t.inline u.path u.value).value ∧
            w = Value.infer (t.inline u.path u.value).raw)) := by
  rcases hknown.exists_comesTo with ⟨w, hw⟩
  have hagree : AgreeOff s (s.inline t.path u.path) (t.inline u.path u.value).path := by
    rw [inline_eq_edit hu, Token.inline_path]
    exact agreeOff_edit s t.path _
  have hmem : t.inline u.path u.value ∈ (s.inline t.path u.path).tokens := by
    rw [tokens_inline_of_mem ht hu]
    exact List.mem_map.mpr ⟨t, ht, if_pos rfl⟩
  have hiff : ∀ v, (s.inline t.path u.path).computed? t.path = some v ↔
      s.Yields (t.inline u.path u.value) v ∧
        ∀ q ∈ (t.inline u.path u.value).needs s.contains, ¬ ReflTransGen s.Needs q t.path := by
    intro v
    have hcomes := hagree.comesTo_iff (v := v) hmem
    rw [Token.inline_path] at hcomes
    rw [computed?_eq_some_iff, hcomes]
  refine ⟨w, computed?_eq_some_iff.mpr hw, hiff, fun hform => ?_,
    fun hform hneeds htidy hstands => ?_⟩
  · have hneeds : u.path ∈ t.needs s.contains := by simp [Token.needs, hform]
    have hv : s.ComesTo u.path w := by
      cases (comesTo_iff_yields ht).mp hw with
      | independent hform' => simp [hform] at hform'
      | whole hform' htarget =>
        rw [hform] at hform'
        cases hform'
        exact htarget
      | filled hform' => simp [hform] at hform'
    refine (hiff w).mpr (Yields.of_value_eq ht hu hknown hneeds hv (by simp) ?_)
    rw [Token.inline_of_whole hform]
  · rcases Token.text_of_filled hform with ⟨y, hy, _⟩
    have hraw : t.raw = y := Value.render_of_text? hy
    have hbody : u.path ∈ bodies t.raw := by simpa [Token.needs, hform] using hneeds
    have hmem' : u.path ∈ embedded y := hraw ▸ htidy.mem_embedded hbody
    have htext : (t.inline u.path u.value).value.text? = some (paste u.path u.raw t.raw) := by
      rw [Token.inline_of_filled hform hy hmem', hraw]
      exact Value.text?_withText hy _
    rcases Yields.of_paste ht hu hform hneeds htidy hstands hw htext with ⟨hfilled, hplain⟩
    refine ⟨fun hform' => (hiff w).mpr (hfilled hform'), fun hform' => ⟨?_, hplain hform'⟩⟩
    exact (hiff _).mpr ⟨.independent hform', by simp [Token.needs, hform']⟩

/-- A shadow among whose text stands a reference to a colour that is the path of another one. -/
def bareSource : OpenStore :=
  ⟨[{ path := "border.surface.base", value := .text "1px solid \x7bcolor.line\x7d" },
    { path := "color.line", value := .text "color.gray" },
    { path := "color.gray", value := .color "#cccccc" }], by decide⟩

/-- The source is a whole reference, but its text is no reference any more in the middle of the
survivor's, which had the colour in it before and has the path in it afterwards. -/
theorem inline_keeps_meaning_bareSource :
    ∃ t ∈ bareSource.tokens, ∃ u ∈ bareSource.tokens, t.path = "border.surface.base" ∧
      u.path = "color.line" ∧ bareSource.Known t.path ∧
      bareSource.computed? t.path = some (.text "1px solid #cccccc") ∧
      (bareSource.inline t.path u.path).computed? t.path =
        some (.text "1px solid color.gray") := by
  let t : Token := bareSource.tokens[0]
  let u : Token := bareSource.tokens[1]
  let c : Token := bareSource.tokens[2]
  have ht : t ∈ bareSource.tokens := List.getElem_mem _
  have hu : u ∈ bareSource.tokens := List.getElem_mem _
  have hc : bareSource.ComesTo "color.gray" (.color "#cccccc") :=
    .independent (t := c) (List.getElem_mem _) (by decide +kernel)
  have hline : bareSource.ComesTo "color.line" (.color "#cccccc") :=
    .whole (t := u) hu (by decide +kernel) hc
  have hborder : bareSource.ComesTo t.path (.text "1px solid #cccccc") := by
    let values : String → Value := fun _ => .color "#cccccc"
    have hbodies : bodies t.raw = ["color.line"] := by decide +kernel
    have hvalues : ∀ p ∈ bodies t.raw, bareSource.ComesTo p (values p) := by
      simpa [hbodies, values] using hline
    have htext : substitute? t.raw (fun p => some (values p).render) =
        some "1px solid #cccccc" := by decide +kernel
    have hvalue : Value.infer "1px solid #cccccc" = .text "1px solid #cccccc" := by decide +kernel
    rw [← hvalue]
    exact .filled ht (by decide +kernel) hvalues htext
  have hvalue : (t.inline u.path u.value).value = .text "1px solid color.gray" := by
    decide +kernel
  have hform : (t.inline u.path u.value).dependence bareSource.contains = .independent := by
    decide +kernel
  rcases inline_keeps_meaning ht hu hborder.known with ⟨w, _, hiff, _⟩
  refine ⟨t, ht, u, hu, rfl, rfl, hborder.known, computed?_eq_some_iff.mpr hborder, ?_⟩
  rw [hiff, ← hvalue]
  exact ⟨.independent hform, by simp [Token.needs, hform]⟩

end Store
end DesignTokens
