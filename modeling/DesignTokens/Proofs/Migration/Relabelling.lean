import DesignTokens.Proofs.Migration.Paths
import DesignTokens.Proofs.Reference.Relabelling

/-!
# A move as a relabelling of the references

When a token moves to a new path, the references of all other tokens follow it.  Seen from the
reference graph nothing happens but that one path gets another name: each of the other tokens refers
to the same paths as before, with the old path renamed, and no text is touched outside the
references to it.
-/

namespace DesignTokens

open Reference

theorem Value.withText_text {v : Value} {y : String} (h : v.text? = some y) : v.withText y = v := by
  cases v with
  | dimension _ _ => cases h
  | number _ => cases h
  | _ => cases h; rfl

namespace Token

variable {old new : String} {t t' : Token} {known known' : String → Bool}

/-- The second token is the first with the references in its text turned from one path to
another.  It has a resolved value only if its text did not change. -/
structure Relabelled (old new : String) (t t' : Token) : Prop where
  path : t'.path = t.path
  declared : t'.declared = t.declared
  description : t'.description = t.description
  value : match t.value.text? with
    | some y => ∃ y', t'.value = t.value.withText y' ∧ Relabels old new y y'
    | none => t'.value = t.value
  resolved : t'.resolved = if t'.value = t.value then t.resolved else none

/-- The value of a token changes exactly if it mentions the old path. -/
theorem redirect_value_eq_iff (hnew : IsClean new) (hne : old ≠ new) :
    (t.redirect old new).value = t.value ↔ t.mentions old = false := by
  constructor
  · intro hvalue
    have hgone := not_mentions_redirect hnew hne t
    rwa [mentions, hvalue] at hgone
  · intro h
    rw [redirect_of_not_mentions h]

theorem redirect_relabelled (hold : old ≠ "") (hnew : IsClean new) (hne : old ≠ new) (t : Token) :
    Relabelled old new t (t.redirect old new) := by
  by_cases hmention : t.mentions old = true
  · obtain ⟨y, y', hy, hy', _⟩ := exists_redirect? hmention new
    have hchanged : ¬ (t.redirect old new).value = t.value := by
      simp [redirect_value_eq_iff hnew hne, hmention]
    have hrelabels := redirect_relabels hold hnew y
    rw [hy', Option.getD_some] at hrelabels
    rw [redirect_of_redirect? hy hy'] at hchanged ⊢
    exact ⟨rfl, rfl, rfl, by simpa only [hy] using ⟨y', rfl, hrelabels⟩, (if_neg hchanged).symm⟩
  · rw [Bool.not_eq_true] at hmention
    rw [redirect_of_not_mentions hmention]
    refine ⟨rfl, rfl, rfl, ?_, (if_pos rfl).symm⟩
    cases hy : t.value.text? with
    | none => rfl
    | some y =>
      have hnone : redirect? y old new = none :=
        redirect?_eq_none_iff.mpr (by simpa [mentions, hy] using hmention)
      have hrelabels := redirect_relabels hold hnew y
      rw [hnone, Option.getD_none] at hrelabels
      exact ⟨y, (Value.withText_text hy).symm, hrelabels⟩

/-- The targets of a relabelled token are its old ones with the old path renamed. -/
theorem targets_of_relabelled (hold : IsClean old) (hnew : IsClean new) (hpathOld : t.path ≠ old)
    (hpathNew : t.path ≠ new) (hknown : known old = true) (hknown' : known' new = true)
    (hsame : ∀ q, q ≠ old → q ≠ new → known' q = known q)
    (hbare : ∀ y, t.value.text? = some y → Text.trim y ≠ new) (h : Relabelled old new t t') :
    t'.targets known' =
      Text.firsts ((t.targets known).map fun q => if q = old then new else q) := by
  have hvalue := h.value
  cases hy : t.value.text? with
  | none =>
    rw [hy] at hvalue
    simp [targets, hvalue, hy, Text.firsts]
  | some y =>
    rw [hy] at hvalue
    obtain ⟨y', hvalue', hrelabels⟩ := hvalue
    have hy' : t'.value.text? = some y' := hvalue' ▸ Value.text?_withText hy y'
    simp only [targets, hy, hy', h.path]
    exact extract_of_relabels hold hnew hpathOld hpathNew hknown hknown' hsame (hbare y hy)
      hrelabels

/-- Another token follows a moved one by being redirected. -/
theorem follow_eq_redirect (h : t.path ≠ old) : t.follow old new = t.redirect old new := by
  unfold follow
  split
  · rfl
  · next href =>
    rw [references_iff, not_and, Bool.not_eq_true] at href
    exact (redirect_of_not_mentions (href h)).symm

end Token

namespace Store

variable {s s' : OpenStore} {t : Token} {target : String}

/-- The tokens of a store other than the one at a path, in their order. -/
def others (s : OpenStore) (path : String) : List Token :=
  s.tokens.filter fun u => u.path != path

theorem movedTokens_eq (s : OpenStore) (t : Token) (target : String) :
    s.movedTokens t target =
      (s.others t.path).map (Token.follow t.path target) ++ [{ t with path := target }] := by
  have hpath : ((fun u : Token => u.path != t.path) ∘ Token.follow t.path target) =
      fun u => u.path != t.path := by
    funext u
    rw [Function.comp_apply, Token.follow_path]
  rw [movedTokens, List.filter_map, hpath, others]

/-- The referrers of a path are the tokens whose value changes with it. -/
theorem referrers_eq (htarget : IsClean target) (hne : t.path ≠ target) :
    s.referrers t.path =
      ((s.others t.path).filter fun u =>
        (u.follow t.path target).value ≠ u.value).map Token.path := by
  rw [referrers, others, List.filter_filter]
  congr 1
  refine List.filter_congr fun u _ => ?_
  rw [Bool.eq_iff_iff, Token.references_iff]
  by_cases hpath : u.path = t.path
  · simp [hpath]
  · simp [hpath, Token.follow_eq_redirect hpath, Token.redirect_value_eq_iff htarget hne]

/-- A move changes which paths are known at its two ends only. -/
theorem contains_of_movedTokens (h : s'.tokens = s.movedTokens t target) {q : String}
    (hold : q ≠ t.path) (hnew : q ≠ target) : s'.contains q = s.contains q := by
  rw [Bool.eq_iff_iff, contains_iff, contains_iff, paths_of_movedTokens h]
  simp [hold, hnew]

/-- A move to a free path relabels the references of a store with clean paths.  The moved token
keeps all but its path and comes last; the others keep their order, and in each of them nothing
changes but the references to the old path, with which goes the resolved value.  The tokens whose
text changed are on record, in store order.  The targets of every other token are those from before
with the old path renamed, unless its text was the new path by itself. -/
theorem move_relabels {s : OpenStore} {t : Token} {target : String} (kind : ActionKind)
    (hclean : ∀ p ∈ s.paths, IsClean p) (ht : t ∈ s.tokens) (htarget : IsClean target)
    (hfree : target ∉ s.paths) :
    ∃ (s' : OpenStore) (after : Token → Token),
      s'.tokens = (s.others t.path).map after ++ [{ t with path := target }] ∧
      s.relocate false kind t.path target = (s', .ok
        { kind
          path := t.path
          newPath := some target
          updated := ((s.others t.path).filter fun u => (after u).value ≠ u.value).map
            Token.path }) ∧
      ∀ u ∈ s.others t.path, Token.Relabelled t.path target u (after u) ∧
        ((∀ y, u.value.text? = some y → Text.trim y ≠ target) →
          (after u).targets s'.contains =
            Text.firsts ((u.targets s.contains).map fun q =>
              if q = t.path then target else q)) := by
  have hmem := path_mem_paths ht
  have hold := hclean _ hmem
  have hne : t.path ≠ target := fun heq => hfree (heq ▸ hmem)
  obtain ⟨s', hrun, htokens⟩ := relocate_eq_ok kind ht hne hfree
  refine ⟨s', Token.follow t.path target, ?_, ?_, fun u hu => ?_⟩
  · rw [htokens, movedTokens_eq]
  · rw [hrun, movedOp, referrers_eq htarget hne]
  · obtain ⟨hu, hother⟩ : u ∈ s.tokens ∧ u.path ≠ t.path := by simpa [others] using hu
    have hnew : u.path ≠ target := fun heq => hfree (heq ▸ path_mem_paths hu)
    have hknown : target ∈ s'.paths := by
      rw [paths_of_movedTokens htokens]
      exact List.mem_append_right _ List.mem_cons_self
    rw [Token.follow_eq_redirect hother]
    have hrelabelled := Token.redirect_relabelled hold.1 htarget hne u
    refine ⟨hrelabelled, fun hbare => ?_⟩
    exact Token.targets_of_relabelled hold htarget hother hnew (contains_iff.mpr hmem)
      (contains_iff.mpr hknown) (fun q => contains_of_movedTokens htokens) hbare hrelabelled

/-- A token that others refer to in three ways: between braces, among other text and by its path.
A fourth has the text that will be the new path. -/
def threeWays : OpenStore :=
  ⟨[{ path := "bg.base", value := .color "#fff", description := some "page" },
    { path := "pure", value := .text "\x7bbg.base\x7d", resolved := some (.color "#fff") },
    { path := "among"
      value := .shadow "\x7b x \x7d 1px \x7bbg.base\x7d \x7b bg.base \x7d \x7bbg" },
    { path := "bare", value := .text "bg.base" },
    { path := "late", value := .text "background.base", resolved := some (.text "old") }],
    by decide⟩

/-- The move is recorded with the three tokens that refer to the first one, and the targets of the
one with several references are renamed without repeats. -/
theorem move_relabels_threeWays :
    (∀ p ∈ threeWays.paths, IsClean p) ∧ IsClean "background.base" ∧
      "background.base" ∉ threeWays.paths ∧
      ∃ (s' : OpenStore) (op : Operation), ∃ t' ∈ s'.tokens, ∃ t ∈ s'.tokens,
        threeWays.relocate false .rename "bg.base" "background.base" = (s', .ok op) ∧
        op.updated = ["pure", "among", "bare"] ∧
        t = { path := "background.base", value := .color "#fff", description := some "page" } ∧
        t'.path = "among" ∧ t'.targets s'.contains = ["x", "background.base"] := by
  have hclean : ∀ p ∈ threeWays.paths, IsClean p := by decide +kernel
  have htarget : IsClean "background.base" := by decide +kernel
  have hfree : "background.base" ∉ threeWays.paths := by decide +kernel
  let t : Token := { path := "bg.base", value := .color "#fff", description := some "page" }
  let u : Token :=
    { path := "among"
      value := .shadow "\x7b x \x7d 1px \x7bbg.base\x7d \x7b bg.base \x7d \x7bbg" }
  have ht : t ∈ threeWays.tokens := List.mem_cons_self
  have hu : u ∈ threeWays.others t.path :=
    List.mem_filter.mpr ⟨by simp [threeWays, u], by decide⟩
  obtain ⟨s', after, htokens, hrun, hothers⟩ := move_relabels .rename hclean ht htarget hfree
  obtain ⟨hrelabelled, htargets⟩ := hothers u hu
  have hupdated : (threeWays.relocate false .rename "bg.base" "background.base").2 = .ok
      { kind := .rename
        path := "bg.base"
        newPath := some "background.base"
        updated := ["pure", "among", "bare"] } := by decide +kernel
  rw [hrun, Except.ok.injEq] at hupdated
  refine ⟨hclean, htarget, hfree, s', _, after u, ?_, { t with path := "background.base" }, ?_,
    hrun, by rw [hupdated], rfl, hrelabelled.path, ?_⟩
  · rw [htokens]
    exact List.mem_append_left _ (List.mem_map_of_mem hu)
  · rw [htokens]
    exact List.mem_append_right _ List.mem_cons_self
  · have hbare : ∀ y, u.value.text? = some y → Text.trim y ≠ "background.base" := by
      intro y hy
      cases hy
      decide +kernel
    rw [htargets hbare]
    decide +kernel

end Store
end DesignTokens
