import DesignTokens.Proofs.Store.Recognition
import DesignTokens.Proofs.Store.Resolution
import Mathlib.Logic.Relation

/-!
# What a value rests on

The value of a token is made from the values of the paths that it needs: the target of a whole
reference, or the bodies of the groups of a text.  A store gives a token the same value as another
store if the two agree on the token and on everything that it needs, directly or through other
tokens; what else there is in the stores makes no difference.  A path that comes to a value never
needs itself.

So when one token of a store is edited, all tokens that do not need it keep their values, and the
new value of the edited token is what its new text yields in the old store, unless it now needs
itself.
-/

namespace DesignTokens

open Relation

/-- The dependence with its target renamed. -/
def Dependence.map (f : String → String) : Dependence → Dependence
  | independent => independent
  | whole target => whole (f target)
  | filled => filled

theorem Dependence.map_eq_independent_iff {f : String → String} {d : Dependence} :
    d.map f = .independent ↔ d = .independent := by
  cases d <;> simp [map]

theorem Dependence.map_eq_whole_iff {f : String → String} {d : Dependence} {target : String} :
    d.map f = .whole target ↔ ∃ source, d = .whole source ∧ f source = target := by
  cases d <;> simp [map]

/-- The paths whose values go into the value of a token. -/
def Token.needs (t : Token) (known : String → Bool) : List String :=
  match t.dependence known with
  | .independent => []
  | .whole target => [target]
  | .filled => Reference.bodies t.raw

namespace Token

variable {t : Token} {known : String → Bool} {target q : String}

/-- The text of a whole reference has no other target. -/
theorem dependence_eq_whole_iff : t.dependence known = .whole target ↔
    t.targets known = [target] ∧ Reference.isWhole t.raw target = true := by
  unfold Token.dependence
  split
  · next h => simp [h]
  · next first h =>
    rw [h]
    split
    · next hwhole =>
      simp only [Dependence.whole.injEq, List.cons.injEq, and_true]
      exact ⟨fun heq => ⟨heq, heq ▸ hwhole⟩, And.left⟩
    · next hpart =>
      simp only [reduceCtorEq, List.cons.injEq, and_true, false_iff, not_and]
      exact fun heq hwhole => hpart (heq ▸ hwhole)
  · next hnone hmany =>
    simp only [reduceCtorEq, false_iff, not_and]
    exact fun hone => absurd hone (hmany target)

/-- A text without groups that refers to a path is a whole reference to it. -/
theorem dependence_of_bare {y : String} (hy : t.value.text? = some y)
    (hnone : Reference.embedded y = []) (h : q ∈ t.targets known) :
    t.dependence known = .whole q := by
  have hraw : t.raw = y := Value.render_of_text? hy
  have htargets : t.targets known = Reference.extract t.path y known := by
    simp only [Token.targets, hy]
  rw [htargets, Reference.extract_of_not_embedded hnone] at h
  rw [dependence_eq_whole_iff, htargets, Reference.extract_of_not_embedded hnone]
  split at h
  · next hbare =>
    obtain rfl := List.mem_singleton.mp h
    exact ⟨if_pos hbare, by simp [Reference.isWhole, hraw]⟩
  · cases h

/-- A text that is one group is a whole reference to the body of the group. -/
theorem dependence_of_pure {y : String} (hy : t.value.text? = some y)
    (hpure : Reference.pure? y = some q) (hq : q ≠ "") : t.dependence known = .whole q := by
  have hraw : t.raw = y := Value.render_of_text? hy
  have hembedded := Reference.embedded_of_pure? hpure
  rw [if_neg hq] at hembedded
  have hsome : Reference.embedded y ≠ [] := by simp [hembedded]
  rw [dependence_eq_whole_iff, Token.targets, hy]
  refine ⟨?_, by simp [Reference.isWhole, hraw, hpure]⟩
  dsimp only
  rw [Reference.extract_of_embedded hsome, hembedded]
  rfl

/-- The text of a whole reference is the path of the target by itself or between braces. -/
theorem text_of_whole (h : t.dependence known = .whole target) :
    ∃ y, t.value.text? = some y ∧
      (Reference.embedded y = [] ∧ Text.trim y = target ∨
        Reference.embedded y = [target] ∧ Reference.pure? y = some target) := by
  rcases dependence_eq_whole_iff.mp h with ⟨htargets, hwhole⟩
  have hmem : target ∈ t.targets known := htargets ▸ List.mem_singleton_self target
  rcases mem_targets.mp hmem with ⟨y, hy, hcase⟩
  have hraw : t.raw = y := Value.render_of_text? hy
  refine ⟨y, hy, hcase.symm.imp (fun hbare => ⟨hbare.1, hbare.2.1.symm⟩) fun hin => ?_⟩
  -- The target stands between braces, so the text is not the target by itself.
  have hpart : Text.trim y ≠ target := Reference.trim_ne_of_mem_embedded hin
  have hpure : (Reference.pure? y).isSome = true := by
    simpa [Reference.isWhole, hraw, hpart] using hwhole
  rcases Option.isSome_iff_exists.mp hpure with ⟨p, hp⟩
  have hembedded := Reference.embedded_of_pure? hp
  rw [hembedded] at hin
  split at hin
  · cases hin
  · next hne =>
    obtain rfl := List.mem_singleton.mp hin
    rw [if_neg hne] at hembedded
    exact ⟨hembedded, hp⟩

/-- A text with references between braces is a whole reference if it is one group, and it is filled in
otherwise. -/
theorem dependence_of_embedded {y : String} (hy : t.value.text? = some y)
    (h : q ∈ Reference.embedded y) :
    t.dependence known = (Reference.pure? y).elim .filled .whole := by
  have htarget : q ∈ t.targets known := mem_targets.mpr ⟨y, hy, .inl h⟩
  cases hform : t.dependence known with
  | independent =>
    rw [dependence_eq_independent_iff.mp hform] at htarget
    cases htarget
  | whole target =>
    rcases text_of_whole hform with ⟨z, hz, hshape⟩
    obtain rfl : z = y := Option.some.inj (hz.symm.trans hy)
    rcases hshape with ⟨hnone, _⟩ | ⟨_, hpure⟩
    · rw [hnone] at h
      cases h
    · rw [hpure, Option.elim_some]
  | filled =>
    cases hpure : Reference.pure? y with
    | none => rfl
    | some p =>
      have hembedded := Reference.embedded_of_pure? hpure
      split at hembedded
      · rw [hembedded] at h
        cases h
      · next hne =>
        rw [dependence_of_pure hy hpure hne] at hform
        cases hform

/-- A token that is filled in has a text with references between braces. -/
theorem text_of_filled (h : t.dependence known = .filled) :
    ∃ y, t.value.text? = some y ∧ Reference.embedded y ≠ [] := by
  have htargets : t.targets known ≠ [] := by
    intro hnone
    rw [dependence_eq_independent_iff.mpr hnone] at h
    cases h
  rcases List.exists_mem_of_ne_nil _ htargets with ⟨q, hq⟩
  rcases mem_targets.mp hq with ⟨y, hy, _⟩
  refine ⟨y, hy, fun hnone => ?_⟩
  rw [dependence_of_bare hy hnone hq] at h
  cases h

/-- Every target is needed. -/
theorem mem_needs_of_mem_targets (h : q ∈ t.targets known) : q ∈ t.needs known := by
  unfold Token.needs
  cases hform : t.dependence known with
  | independent => rwa [dependence_eq_independent_iff.mp hform] at h
  | whole target => rwa [(dependence_eq_whole_iff.mp hform).1] at h
  | filled =>
    rcases mem_targets.mp h with ⟨y, hy, hcase⟩
    have hraw : t.raw = y := Value.render_of_text? hy
    rcases hcase with hmem | ⟨hnone, _⟩
    · exact hraw ▸ Reference.mem_bodies_iff.mpr (.inl hmem)
    · rw [dependence_of_bare hy hnone h] at hform
      cases hform

/-! ## Tokens that depend on renamed paths -/

/-- The second token depends on other paths as the first one does, with these paths renamed. -/
structure Renamed (f : String → String) (known known' : String → Bool) (t t' : Token) : Prop where
  dependence : t'.dependence known' = (t.dependence known).map f
  value : t.dependence known = .independent → t'.value = t.value
  bodies : t.dependence known = .filled →
    Reference.bodies t'.raw = (Reference.bodies t.raw).map f
  fill : t.dependence known = .filled →
    ∀ g, Reference.fill g t'.raw = Reference.fill (fun p => g (f p)) t.raw

namespace Renamed

variable {f g : String → String} {known' known'' : String → Bool} {t' t'' : Token}

/-- A token depends on the same paths if what it needs keeps its name. -/
theorem of_fixed (h : t.dependence known' = t.dependence known)
    (hfixed : ∀ q ∈ t.needs known, f q = q) : Renamed f known known' t t where
  dependence := by
    rw [h]
    cases hform : t.dependence known with
    | independent => rfl
    | whole target => rw [Dependence.map, hfixed target (by simp [needs, hform])]
    | filled => rfl
  value _ := rfl
  bodies hform := by
    have hbodies : ∀ q ∈ Reference.bodies t.raw, f q = q := by simpa [needs, hform] using hfixed
    rw [List.map_congr_left hbodies, List.map_id']
  fill hform g := by
    have hbodies : ∀ q ∈ Reference.bodies t.raw, f q = q := by simpa [needs, hform] using hfixed
    exact Reference.fill_congr fun p hp => by rw [hbodies p hp]

theorem trans (h : Renamed f known known' t t') (h' : Renamed g known' known'' t' t'') :
    Renamed (fun p => g (f p)) known known'' t t'' where
  dependence := by
    rw [h'.dependence, h.dependence]
    cases t.dependence known <;> rfl
  value hform := by
    have hform' : t'.dependence known' = .independent := by rw [h.dependence, hform]; rfl
    rw [h'.value hform', h.value hform]
  bodies hform := by
    have hform' : t'.dependence known' = .filled := by rw [h.dependence, hform]; rfl
    rw [h'.bodies hform', h.bodies hform, List.map_map]
    rfl
  fill hform k := by
    have hform' : t'.dependence known' = .filled := by rw [h.dependence, hform]; rfl
    rw [h'.fill hform', h.fill hform]

end Renamed

end Token

namespace Store

variable {locked locked' : String → Bool} {s : Store locked} {s' : Store locked'} {t : Token}
  {p q : String} {v : Value}

/-- The token at one path needs the value of the other path. -/
def Needs (s : Store locked) (p q : String) : Prop :=
  ∃ t ∈ s.tokens, t.path = p ∧ q ∈ t.needs s.contains

theorem needs_iff_of_mem (ht : t ∈ s.tokens) : s.Needs t.path q ↔ q ∈ t.needs s.contains := by
  constructor
  · intro h
    rcases h with ⟨u, hu, hpath, hq⟩
    rwa [eq_of_path_eq hu ht hpath] at hq
  · exact fun hq => ⟨t, ht, rfl, hq⟩

/-! ## Values, read token by token -/

/-- The second text is the first with every group replaced by the text of a value that its body comes
to. -/
def Fills (s : Store locked) (text filled : String) : Prop :=
  ∃ values : String → Value, (∀ p ∈ Reference.bodies text, s.ComesTo p (values p)) ∧
    Reference.fill (fun p => (values p).render) text = filled

/-- The value that a token has among the values of a store, be it a token of the store or not. -/
inductive Yields (s : Store locked) (t : Token) : Value → Prop
  | independent (hform : t.dependence s.contains = .independent) : s.Yields t t.value
  | whole {target : String} {v : Value} (hform : t.dependence s.contains = .whole target)
      (htarget : s.ComesTo target v) : s.Yields t v
  | filled {text : String} (hform : t.dependence s.contains = .filled)
      (htext : s.Fills t.raw text) : s.Yields t (Value.infer text)

theorem comesTo_iff_yields (ht : t ∈ s.tokens) : s.ComesTo t.path v ↔ s.Yields t v := by
  constructor
  · intro h
    generalize hp : t.path = p at h
    cases h with
    | independent hu hform =>
      obtain rfl := eq_of_path_eq ht hu hp
      exact .independent hform
    | whole hu hform htarget =>
      obtain rfl := eq_of_path_eq ht hu hp
      exact .whole hform htarget
    | filled hu hform hbodies htext =>
      obtain rfl := eq_of_path_eq ht hu hp
      rw [Reference.substitute?_some] at htext
      exact .filled hform ⟨_, hbodies, Option.some.inj htext⟩
  · intro h
    cases h with
    | independent hform => exact .independent ht hform
    | whole hform htarget => exact .whole ht hform htarget
    | filled hform htext =>
      rcases htext with ⟨values, hbodies, rfl⟩
      exact .filled ht hform hbodies (Reference.substitute?_some _ _)

/-- A text is filled in one way only. -/
theorem Fills.unique {text filled filled' : String} (h : s.Fills text filled)
    (h' : s.Fills text filled') : filled = filled' := by
  rcases h with ⟨values, hbodies, rfl⟩
  rcases h' with ⟨values', hbodies', rfl⟩
  exact Reference.fill_congr fun p hp => by rw [(hbodies p hp).unique (hbodies' p hp)]

/-- The values of the paths that a token needs are all that matters for its value: it has the same
value in a store where it needs paths of other names that come to these values. -/
theorem Yields.renamed {f : String → String} {t' : Token}
    (h : Token.Renamed f s.contains s'.contains t t')
    (hneeds : ∀ q ∈ t.needs s.contains, ∀ v, s.ComesTo q v → s'.ComesTo (f q) v)
    (hv : s.Yields t v) : s'.Yields t' v := by
  have hform' := h.dependence
  cases hv with
  | independent hform =>
    rw [hform] at hform'
    rw [← h.value hform]
    exact .independent hform'
  | @whole target v hform htarget =>
    rw [hform] at hform'
    exact .whole hform' (hneeds target (by simp [Token.needs, hform]) v htarget)
  | @filled text hform htext =>
    rw [hform] at hform'
    rcases htext with ⟨values, hbodies, rfl⟩
    have hcome : ∀ q ∈ Reference.bodies t.raw, s'.ComesTo (f q) (values q) := fun q hq =>
      hneeds q (by simpa [Token.needs, hform] using hq) _ (hbodies q hq)
    -- Every new body has a value, and it is the one of each old body that is renamed to it.
    have hexists : ∀ p ∈ Reference.bodies t'.raw, ∃ v, s'.ComesTo p v := by
      intro p hp
      rw [h.bodies hform] at hp
      rcases List.mem_map.mp hp with ⟨q, hq, rfl⟩
      exact ⟨values q, hcome q hq⟩
    have : Nonempty Value := ⟨t.value⟩
    choose! values' hvalues' using hexists
    refine .filled hform' ⟨values', hvalues', ?_⟩
    rw [h.fill hform]
    refine Reference.fill_congr fun q hq => ?_
    have hmem : f q ∈ Reference.bodies t'.raw := by
      rw [h.bodies hform]
      exact List.mem_map_of_mem hq
    rw [(hvalues' _ hmem).unique (hcome q hq)]

/-- A token that is in two stores has the same value in both, if what it needs has. -/
theorem Yields.carried (hform : t.dependence s'.contains = t.dependence s.contains)
    (hneeds : ∀ q ∈ t.needs s.contains, ∀ v, s.ComesTo q v → s'.ComesTo q v)
    (h : s.Yields t v) : s'.Yields t v :=
  h.renamed (.of_fixed hform fun _ _ => rfl) hneeds

/-- To show something of every known path, show it of a token of which it holds for all that the
token needs. -/
theorem Known.needs_induction {P : String → Prop} (h : s.Known p)
    (step : ∀ t ∈ s.tokens, (∀ q ∈ t.needs s.contains, P q) → P t.path) : P p := by
  induction h with
  | independent ht hform => exact step _ ht (by simp [Token.needs, hform])
  | whole ht hform _ ih => exact step _ ht (by simpa [Token.needs, hform] using ih)
  | filled ht hform _ ih => exact step _ ht (by simpa [Token.needs, hform] using ih)

/-- A store in which the tokens at some paths are the same, and need only such paths, gives these
paths the same values. -/
theorem ComesTo.carried {P : String → Prop}
    (hsame : ∀ t ∈ s.tokens, P t.path → t ∈ s'.tokens ∧
      t.dependence s'.contains = t.dependence s.contains ∧ ∀ q ∈ t.needs s.contains, P q)
    (hp : P p) (h : s.ComesTo p v) : s'.ComesTo p v := by
  have hall : P p → ∀ v, s.ComesTo p v → s'.ComesTo p v := by
    refine h.known.needs_induction (P := fun p => P p → ∀ v, s.ComesTo p v → s'.ComesTo p v)
      fun t ht ih hp v hv => ?_
    rcases hsame t ht hp with ⟨ht', hform, hneeds⟩
    have hyields := (comesTo_iff_yields ht).mp hv
    exact (comesTo_iff_yields ht').mpr
      (hyields.carried hform fun q hq => ih q hq (hneeds q hq))
  exact hall hp v h

/-! ## No value rests on itself -/

/-- A known path does not need itself, not even through other tokens. -/
theorem Known.not_needs_itself (h : s.Known p) : ¬ TransGen s.Needs p p := by
  refine h.needs_induction (P := fun p => ¬ TransGen s.Needs p p) fun t ht ih hcycle => ?_
  -- A chain from the path back to itself would be one for the first path that it needs.
  rcases TransGen.head'_iff.mp hcycle with ⟨q, hq, hback⟩
  exact ih q ((needs_iff_of_mem ht).mp hq) (.tail' hback hq)

/-- A token at a known path needs nothing that leads back to it. -/
theorem Known.not_reaches (ht : t ∈ s.tokens) (h : s.Known t.path) (hq : q ∈ t.needs s.contains) :
    ¬ ReflTransGen s.Needs q t.path :=
  fun hback => h.not_needs_itself (.head' ((needs_iff_of_mem ht).mpr hq) hback)

theorem Known.of_needs (ht : t ∈ s.tokens) (h : s.Known t.path) (hq : q ∈ t.needs s.contains) :
    s.Known q := by
  generalize hp : t.path = p at h
  cases h with
  | independent hu hform =>
    obtain rfl := eq_of_path_eq ht hu hp
    simp [Token.needs, hform] at hq
  | @whole u target hu hform htarget =>
    obtain rfl := eq_of_path_eq ht hu hp
    have hqtarget : q = target := by simpa [Token.needs, hform] using hq
    rwa [hqtarget]
  | filled hu hform hbodies =>
    obtain rfl := eq_of_path_eq ht hu hp
    exact hbodies q (by simpa [Token.needs, hform] using hq)

/-! ## One token edited -/

/-- The two stores have the same paths, and the same tokens except at one path. -/
structure AgreeOff (s : Store locked) (s' : Store locked') (p : String) : Prop where
  tokens : ∀ t, t.path ≠ p → (t ∈ s.tokens ↔ t ∈ s'.tokens)
  contains : s'.contains = s.contains

theorem agreeOff_edit (s : Store locked) (p : String) (f : Token → Token) :
    AgreeOff s (s.edit p f) p where
  tokens t hne := by
    have hkept : ∀ u : Token, u.path ≠ p → editToken p f u = u := fun u hu => by
      simp [editToken, hu]
    rw [tokens_edit, List.mem_map]
    constructor
    · exact fun ht => ⟨t, ht, hkept t hne⟩
    · intro ht
      rcases ht with ⟨u, hu, rfl⟩
      rwa [hkept u (by simpa using hne)]
  contains := by
    funext q
    rw [Bool.eq_iff_iff, contains_iff, contains_iff, paths_edit]

namespace AgreeOff

theorem symm (h : AgreeOff s s' p) : AgreeOff s' s p where
  tokens t hne := (h.tokens t hne).symm
  contains := h.contains.symm

/-- What leads to the edited path in one store does so in the other: up to there the chain runs
over tokens that are the same. -/
theorem reaches (h : AgreeOff s s' p) (hchain : ReflTransGen s.Needs q p) :
    ReflTransGen s'.Needs q p := by
  induction hchain using ReflTransGen.head_induction_on with
  | refl => exact .refl
  | @head q r hlink _ ih =>
    by_cases hq : q = p
    · rw [hq]
    · rcases hlink with ⟨t, ht, rfl, hr⟩
      exact .head ⟨t, (h.tokens t hq).mp ht, rfl, h.contains ▸ hr⟩ ih

/-- What does not lead to the edited path comes to the same value in both stores. -/
theorem comesTo (h : AgreeOff s s' p) (hq : ¬ ReflTransGen s.Needs q p) (hv : s.ComesTo q v) :
    s'.ComesTo q v := by
  refine ComesTo.carried (P := fun q => ¬ ReflTransGen s.Needs q p) (fun t ht hfar => ?_) hq hv
  have hne : t.path ≠ p := fun heq => hfar (heq ▸ .refl)
  refine ⟨(h.tokens t hne).mp ht, by rw [h.contains], fun r hr hback => ?_⟩
  exact hfar (.head ((needs_iff_of_mem ht).mpr hr) hback)

/-- The new token at the edited path comes to what it yields in the old store, as long as nothing
that it needs there leads back to it. -/
theorem comesTo_iff (h : AgreeOff s s' t.path) (ht : t ∈ s'.tokens) :
    s'.ComesTo t.path v ↔
      s.Yields t v ∧ ∀ q ∈ t.needs s.contains, ¬ ReflTransGen s.Needs q t.path := by
  have hform : t.dependence s'.contains = t.dependence s.contains := by rw [h.contains]
  have hneeds : t.needs s'.contains = t.needs s.contains := by rw [h.contains]
  rw [comesTo_iff_yields ht]
  constructor
  · intro hv
    have hknown := ((comesTo_iff_yields ht).mpr hv).known
    have hfar : ∀ q ∈ t.needs s'.contains, ¬ ReflTransGen s'.Needs q t.path :=
      fun q hq => hknown.not_reaches ht hq
    refine ⟨hv.carried hform.symm fun q hq w hw => h.symm.comesTo (hfar q hq) hw, ?_⟩
    intro q hq hback
    exact hfar q (hneeds.symm ▸ hq) (h.reaches hback)
  · intro hv
    exact hv.1.carried hform fun q hq w hw => h.comesTo (hv.2 q hq) hw

end AgreeOff

/-! ## The value that a resolution computes -/

/-- The value that a resolution computes for a path; a token without references has its own. -/
def computed? (s : Store locked) (p : String) : Option Value := s.settled.1.value? p

theorem computed?_eq_some_iff : s.computed? p = some v ↔ s.ComesTo p v := by
  constructor
  · exact s.progress_settled.sound p v
  · intro h
    rcases Option.isSome_iff_exists.mp h.known.settled.1 with ⟨w, hw⟩
    rw [computed?, hw, h.unique (s.progress_settled.sound p w hw)]

end Store
end DesignTokens
