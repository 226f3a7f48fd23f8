import DesignTokens.Migration.Operation
import DesignTokens.Proofs.Reference.Redirect
import DesignTokens.Proofs.Store.Tokens

/-!
# Redirecting the references of a store

`Token.mentions` says that the value of a token names a path, be it the token's own or not;
`Token.references` leaves out the token's own path.  Redirecting the references to a path rewrites
exactly the tokens that refer to it and leaves all others, and every path, as they are.
-/

namespace DesignTokens

theorem Value.text?_withText {v : Value} {s : String} (h : v.text? = some s) (s' : String) :
    (v.withText s').text? = some s' := by
  cases v with
  | dimension _ _ => cases h
  | number _ => cases h
  | _ => rfl

theorem Value.render_of_text? {v : Value} {s : String} (h : v.text? = some s) : v.render = s := by
  cases v with
  | dimension _ _ => cases h
  | number _ => cases h
  | _ => exact Option.some.inj h

namespace Token

open Reference

/-- Whether the raw value names a path in one of the three ways. -/
def mentions (t : Token) (target : String) : Bool :=
  t.value.text?.any fun s => Reference.mentions s target

theorem references_iff {t : Token} {target : String} :
    t.references target = true ↔ t.path ≠ target ∧ t.mentions target = true := by
  simp [references, mentions]

theorem mentions_iff {t : Token} {target : String} :
    t.mentions target = true ↔
      ∃ s, t.value.text? = some s ∧ (Text.trim s = target ∨ target ∈ embedded s) := by
  cases ht : t.value.text? with
  | none => simp [mentions, ht]
  | some s => simp [mentions, ht, Reference.mentions_iff]

/-! ## Redirecting one token -/

variable {t : Token} {old new s s' : String}

theorem redirect_of_redirect? (ht : t.value.text? = some s) (h : redirect? s old new = some s') :
    t.redirect old new = { t with value := t.value.withText s', resolved := none } := by
  simp [redirect, ht, h]

/-- A token that does not mention the old path is left as it is. -/
theorem redirect_of_not_mentions (h : t.mentions old = false) : t.redirect old new = t := by
  cases ht : t.value.text? with
  | none => simp [redirect, ht]
  | some s =>
    have hs : Reference.mentions s old = false := by simpa [mentions, ht] using h
    -- A redirection takes place exactly where there is a mention.
    have hnone : redirect? s old new = none := redirect?_eq_none_iff.mpr hs
    simp [redirect, ht, hnone]

/-- A token that mentions the old path gets the redirected text. -/
theorem exists_redirect? (h : t.mentions old = true) (new : String) :
    ∃ s s', t.value.text? = some s ∧ redirect? s old new = some s' ∧
      (t.redirect old new).value.text? = some s' := by
  rcases mentions_iff.mp h with ⟨s, hs, hmention⟩
  have hsome : (redirect? s old new).isSome = true := by
    rw [isSome_redirect?]
    exact Reference.mentions_iff.mpr hmention
  rcases Option.isSome_iff_exists.mp hsome with ⟨s', hs'⟩
  refine ⟨s, s', hs, hs', ?_⟩
  rw [redirect_of_redirect? hs hs']
  exact Value.text?_withText hs s'

@[simp]
theorem redirect_path (t : Token) (old new : String) : (t.redirect old new).path = t.path := by
  unfold redirect
  split <;> rfl

@[simp]
theorem redirect_declared (t : Token) (old new : String) :
    (t.redirect old new).declared = t.declared := by
  unfold redirect
  split <;> rfl

theorem not_mentions_redirect (hnew : IsClean new) (hne : old ≠ new) (t : Token) :
    (t.redirect old new).mentions old = false := by
  cases h : t.mentions old with
  | false => rwa [redirect_of_not_mentions h]
  | true =>
    rcases exists_redirect? h new with ⟨s, s', _, hs', ht'⟩
    simpa [mentions, ht'] using not_mentions_of_redirect? hnew.isReferable hne hs'

/-! ## Inlining a value -/

@[simp]
theorem inline_path (source : String) (v : Value) (t : Token) :
    (t.inline source v).path = t.path := by
  unfold inline
  split
  · rfl
  · split
    · rfl
    · dsimp only
      split <;> rfl

/-! ## Following a moved token -/

/-- The token after its references to another token have followed that token to a new path. -/
def follow (old new : String) (t : Token) : Token :=
  if t.references old then t.redirect old new else t

@[simp]
theorem follow_path (old new : String) (t : Token) : (t.follow old new).path = t.path := by
  unfold follow
  split
  · exact t.redirect_path old new
  · rfl

@[simp]
theorem follow_declared (old new : String) (t : Token) :
    (t.follow old new).declared = t.declared := by
  unfold follow
  split
  · exact t.redirect_declared old new
  · rfl

/-- The token at the old path keeps its value, also where it names that path. -/
theorem follow_self (new : String) (t : Token) : t.follow t.path new = t := by
  have hself : t.references t.path = false := by simp [references]
  simp [follow, hself]

theorem not_mentions_follow (hnew : IsClean new) (hne : old ≠ new) (ht : t.path ≠ old) :
    (t.follow old new).mentions old = false := by
  unfold follow
  split
  · exact not_mentions_redirect hnew hne t
  · next href =>
    rw [references_iff] at href
    exact Bool.eq_false_iff.mpr fun hmention => href ⟨ht, hmention⟩

end Token

namespace Store

variable {locked : String → Bool} {s : Store locked} {t u : Token}

/-! ## Redirecting the referrers -/

theorem path_mem_referrers (ht : t ∈ s.tokens) (target : String) :
    t.path ∈ s.referrers target ↔ t.references target = true := by
  unfold referrers
  rw [List.mem_map]
  constructor
  · intro hreferrer
    rcases hreferrer with ⟨u, hu, hpath⟩
    rcases List.mem_filter.mp hu with ⟨hmem, href⟩
    rwa [← eq_of_path_eq hmem ht hpath]
  · intro href
    exact ⟨t, List.mem_filter.mpr ⟨ht, href⟩, rfl⟩

theorem nodup_referrers (s : Store locked) (target : String) : (s.referrers target).Nodup :=
  (List.filter_sublist.map Token.path).nodup s.distinct

theorem tokens_redirectAll {rs : List String} (hrs : rs.Nodup) (s : Store locked)
    (old new : String) :
    (s.redirectAll rs old new).tokens =
      s.tokens.map fun t => if t.path ∈ rs then t.redirect old new else t := by
  induction rs generalizing s with
  | nil => simp [redirectAll]
  | cons p rs ih =>
    rcases List.nodup_cons.mp hrs with ⟨hp, hrest⟩
    have hstep : (s.redirectAll (p :: rs) old new) =
        (s.edit p (Token.redirect old new)).redirectAll rs old new := rfl
    rw [hstep, ih hrest, tokens_edit, List.map_map]
    refine List.map_congr_left fun t _ => ?_
    have hedit : editToken p (Token.redirect old new) t =
        if t.path = p then t.redirect old new else t := by
      unfold editToken
      split
      · next h => rw [← Token.redirect_path t old new]
      · rfl
    rw [Function.comp_apply, hedit]
    -- A referrer is edited once: no later one has its path.
    by_cases h : t.path = p
    · simp [h, hp]
    · simp [h]

@[simp]
theorem paths_redirectAll (s : Store locked) (rs : List String) (old new : String) :
    (s.redirectAll rs old new).paths = s.paths := by
  unfold redirectAll
  induction rs generalizing s with
  | nil => rfl
  | cons p rs ih => rw [List.foldl_cons, ih, paths_edit]

/-- Redirecting all referrers of a path rewrites exactly the tokens that refer to it. -/
theorem tokens_redirectAll_referrers (s : Store locked) (old new : String) :
    (s.redirectAll (s.referrers old) old new).tokens = s.tokens.map (Token.follow old new) := by
  rw [tokens_redirectAll (s.nodup_referrers old)]
  refine List.map_congr_left fun t ht => ?_
  simp only [path_mem_referrers ht old, Token.follow]

/-! ## Inlining a value -/

theorem inline_eq_edit (hu : u ∈ s.tokens) (keep : String) :
    s.inline keep u.path = s.edit keep (Token.inline u.path u.value) := by
  simp [inline, get?_eq_some_iff.mpr ⟨hu, rfl⟩]

/-- Only the survivor takes the value in. -/
theorem tokens_inline_of_mem (ht : t ∈ s.tokens) (hu : u ∈ s.tokens) :
    (s.inline t.path u.path).tokens =
      s.tokens.map fun x => if x.path = t.path then t.inline u.path u.value else x := by
  rw [inline_eq_edit hu, tokens_edit]
  refine List.map_congr_left fun x hx => ?_
  by_cases hpath : x.path = t.path
  · obtain rfl := eq_of_path_eq hx ht hpath
    rw [editToken, if_pos rfl, if_pos rfl]
    conv_lhs => rw [← Token.inline_path u.path u.value x]
  · rw [editToken, if_neg hpath, if_neg hpath]

end Store
end DesignTokens
