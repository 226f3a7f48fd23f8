import DesignTokens.Proofs.Migration.Paths
import DesignTokens.Proofs.Migration.Relabelling
import DesignTokens.Proofs.Reference.Commuting

/-!
# Moves in any order

A move does one thing to each token of a store: the token at the source gets the target for a path,
and the references of every other token follow it.  For a single token two independent moves to
clean paths can change places.  So what a run of such moves leaves does not depend on their order,
but for the order of the tokens: a token that moves comes last.
-/

namespace DesignTokens

open Reference

theorem Value.withText_withText (v : Value) (y z : String) :
    (v.withText y).withText z = v.withText z := by
  cases v <;> rfl

/-! ## One token -/

namespace Token

variable {a b a' b' : String} {t : Token}

theorem redirect_of_numeric (h : t.value.text? = none) (old new : String) :
    t.redirect old new = t := by
  simp [redirect, h]

theorem redirect_of_text {y : String} (h : t.value.text? = some y) (old new : String) :
    t.redirect old new =
      { t with
        value := t.value.withText (redirected old new y)
        resolved := if Reference.mentions y old then none else t.resolved } := by
  cases hmention : Reference.mentions y old with
  | true =>
    have hsome : (redirect? y old new).isSome = true := by rw [isSome_redirect?, hmention]
    rcases Option.isSome_iff_exists.mp hsome with ⟨y', hy'⟩
    rw [redirect_of_redirect? h hy', redirected, hy']
    rfl
  | false =>
    have hsilent : t.mentions old = false := by rw [mentions, h, Option.any_some, hmention]
    rw [redirect_of_not_mentions hsilent, redirected_of_not_mentions hmention,
      Value.withText_text h]
    rfl

theorem redirect_with_path (t : Token) (old new path : String) :
    ({ t with path := path } : Token).redirect old new =
      { t.redirect old new with path := path } := by
  unfold redirect
  dsimp only
  split <;> rfl

section

variable (h : IsPlain a a') (h' : IsPlain b b') (hab : a ≠ b) (hab' : a ≠ b') (hba : b ≠ a')
include h h' hab hab' hba

theorem redirect_comm (t : Token) :
    (t.redirect b b').redirect a a' = (t.redirect a a').redirect b b' := by
  cases hy : t.value.text? with
  | none => simp only [redirect_of_numeric hy]
  | some y =>
    rw [redirect_of_text hy b b', redirect_of_text hy a a',
      redirect_of_text (Value.text?_withText hy _), redirect_of_text (Value.text?_withText hy _)]
    dsimp only
    -- Neither redirection changes whether the other one has something to do.
    rw [Value.withText_withText, Value.withText_withText, redirected_comm h h' hab hab' hba,
      mentions_redirected h h' hab hba, mentions_redirected h' h hab.symm hab']
    congr 1
    cases Reference.mentions y a <;> cases Reference.mentions y b <;> rfl

end

/-- What a move makes of a token: the one at the source gets a new path, the others follow. -/
def moved (t : Token) (move : String × String) : Token :=
  if t.path = move.1 then { t with path := move.2 } else t.redirect move.1 move.2

theorem moved_of_path_eq (h : t.path = a) : t.moved (a, a') = { t with path := a' } := if_pos h

theorem moved_of_path_ne (h : t.path ≠ a) : t.moved (a, a') = t.redirect a a' := if_neg h

/-- The two moves of which one leaves from the path of the token. -/
theorem moved_moved_of_path (h : t.path = a) (hab : a ≠ b) (hba : b ≠ a') :
    (t.moved (b, b')).moved (a, a') = (t.moved (a, a')).moved (b, b') := by
  have hother : t.path ≠ b := h ▸ hab
  have hkept : (t.redirect b b').path = a := by rw [redirect_path, h]
  have hthere : ({ t with path := a' } : Token).path ≠ b := hba.symm
  rw [moved_of_path_ne hother, moved_of_path_eq hkept, moved_of_path_eq h,
    moved_of_path_ne hthere, redirect_with_path t b b' a']

theorem moved_comm (h : IsPlain a a') (h' : IsPlain b b') (hab : a ≠ b) (hab' : a ≠ b')
    (hba : b ≠ a') (t : Token) :
    (t.moved (b, b')).moved (a, a') = (t.moved (a, a')).moved (b, b') := by
  by_cases ha : t.path = a
  · exact moved_moved_of_path ha hab hba
  · by_cases hb : t.path = b
    · exact (moved_moved_of_path hb hab.symm hab').symm
    · have hleft : (t.redirect b b').path ≠ a := by rwa [redirect_path]
      have hright : (t.redirect a a').path ≠ b := by rwa [redirect_path]
      rw [moved_of_path_ne hb, moved_of_path_ne hleft, moved_of_path_ne ha,
        moved_of_path_ne hright, redirect_comm h h' hab hab' hba]

end Token

namespace Store

open Operation

variable {s s' s₁ s₂ : OpenStore} {ops ops₁ ops₂ : List Operation} {kind : ActionKind} {t : Token}
  {moves moves' : List (String × String)}

/-- Independent moves from paths without braces to clean paths make the same of a token in every
order. -/
theorem Independent.foldl_moved_eq (h : Independent moves)
    (hplain : ∀ b ∈ moves, IsPlain b.1 b.2) (hperm : moves.Perm moves') (t : Token) :
    moves.foldl Token.moved t = moves'.foldl Token.moved t := by
  refine hperm.foldl_eq' (fun b hb c hc t => ?_) t
  by_cases heq : b = c
  · rw [heq]
  · -- Two moves with the same source would be the same move.
    have hsources : c.1 ≠ b.1 := fun hfst =>
      heq (List.inj_on_of_nodup_map h.sources hb hc hfst.symm)
    exact Token.moved_comm (hplain c hc) (hplain b hb) hsources (h.apart c hc b hb)
      (h.apart b hb c hc) t

/-! ## All tokens -/

theorem perm_others (ht : t ∈ s.tokens) : s.tokens.Perm (s.others t.path ++ [t]) := by
  have hnodup : s.tokens.Nodup := List.Nodup.of_map Token.path s.distinct
  have hothers : (s.others t.path ++ [t]).Nodup := by
    have happart : t ∉ s.others t.path := by simp [others]
    simpa using List.Nodup.concat happart (hnodup.filter _)
  refine (List.perm_ext_iff_of_nodup hnodup hothers).mpr fun u => ?_
  rw [List.mem_append, List.mem_singleton, others, List.mem_filter, bne_iff_ne]
  constructor
  · intro hu
    by_cases hpath : u.path = t.path
    · exact .inr (eq_of_path_eq hu ht hpath)
    · exact .inl ⟨hu, hpath⟩
  · rintro (⟨hu, _⟩ | rfl)
    · exact hu
    · exact ht

/-- A move treats each token by itself, up to the order of the tokens. -/
theorem movedTokens_perm (ht : t ∈ s.tokens) (target : String) :
    (s.movedTokens t target).Perm (s.tokens.map fun u => u.moved (t.path, target)) := by
  have hothers : (s.others t.path).map (Token.follow t.path target) =
      (s.others t.path).map fun u => u.moved (t.path, target) := by
    refine List.map_congr_left fun u hu => ?_
    have hne : u.path ≠ t.path := by simpa [others] using (List.mem_filter.mp hu).2
    rw [Token.follow_eq_redirect hne, Token.moved_of_path_ne hne]
  have hself : [{ t with path := target }] = [t].map fun u => u.moved (t.path, target) := by
    rw [List.map_singleton, Token.moved_of_path_eq rfl]
  rw [movedTokens_eq, hothers, hself, ← List.map_append]
  exact ((perm_others ht).map _).symm

/-- A single move that succeeds. -/
theorem tokens_perm_of_moveTo {b : String × String} {op : Operation} (hsource : b.1 ∈ s.paths)
    (hne : b.1 ≠ b.2) (hop : moveTo kind s b = (s', .ok op)) (hsucceeded : op.succeeded = true) :
    s'.tokens.Perm (s.tokens.map fun t => t.moved b) := by
  rcases b with ⟨p, q⟩
  have hfree : q ∉ s.paths := by
    intro hq
    rw [moveTo_of_taken hsource hne hq] at hop
    cases hop
    cases hsucceeded
  rcases mem_paths.mp hsource with ⟨t, ht, rfl⟩
  rcases moveTo_of_free kind ht hne hfree with ⟨s₁, hrun, htokens⟩
  rw [hop] at hrun
  cases hrun
  rw [htokens]
  exact movedTokens_perm ht q

/-- Independent moves that all succeed treat each token by itself. -/
theorem moves_tokens_perm (h : TargetRun (moveTo kind) moves s s' ops)
    (hmoves : Independent moves) (hsources : ∀ b ∈ moves, b.1 ∈ s.paths)
    (hall : AllSucceeded ops) :
    s'.tokens.Perm (s.tokens.map fun t => moves.foldl Token.moved t) := by
  generalize hstep : moveTo kind = step at h
  induction h with
  | nil s => simp
  | @cons b moves s s₁ s' op rest hop _ ih =>
    have hb : b ∈ b :: moves := List.mem_cons_self
    rw [← hstep] at hop
    rcases allSucceeded_cons.mp hall with ⟨hsucceeded, hrest⟩
    have hfirst : Moved [b] s s₁ [op] :=
      moved_of_moveTo (hsources b hb) (hmoves.apart b hb b hb) hop
    -- The later sources are still there, because none of them is the first one.
    have hleft : ∀ c ∈ moves, c.1 ∈ s₁.paths := by
      intro c hc
      have hother : c.1 ≠ b.1 := fun heq =>
        (List.nodup_cons.mp hmoves.sources).1 (heq ▸ List.mem_map_of_mem hc)
      rw [hfirst.paths (by simp [hsucceeded]), List.mem_append, List.mem_filter]
      exact .inl ⟨hsources c (List.mem_cons_of_mem _ hc), by simpa using hother⟩
    have hone := (tokens_perm_of_moveTo (hsources b hb) (hmoves.apart b hb b hb) hop
      hsucceeded).map fun t => moves.foldl Token.moved t
    rw [List.map_map] at hone
    exact (ih hmoves.tail hleft hrest).trans hone

/-- Two runs of the same independent moves from paths without braces to clean paths, in whatever
order, leave the same tokens. -/
theorem moves_in_any_order (h₁ : TargetRun (moveTo kind) moves s s₁ ops₁)
    (h₂ : TargetRun (moveTo kind) moves' s s₂ ops₂) (hperm : moves.Perm moves')
    (hmoves : Independent moves) (hsources : ∀ b ∈ moves, b.1 ∈ s.paths)
    (hplain : ∀ b ∈ moves, IsPlain b.1 b.2) (hall₁ : AllSucceeded ops₁)
    (hall₂ : AllSucceeded ops₂) : s₁.tokens.Perm s₂.tokens := by
  have hsources' : ∀ b ∈ moves', b.1 ∈ s.paths := fun b hb => hsources b (hperm.mem_iff.mpr hb)
  have hfirst := moves_tokens_perm h₁ hmoves hsources hall₁
  have hsecond := moves_tokens_perm h₂ (hmoves.perm hperm) hsources' hall₂
  have hsame : (fun t => moves.foldl Token.moved t) = fun t => moves'.foldl Token.moved t :=
    funext (hmoves.foldl_moved_eq hplain hperm)
  rw [hsame] at hfirst
  exact hfirst.trans hsecond.symm

/-- A path with braces, and a text that becomes that path when the other one is renamed. -/
def bracedPath : OpenStore :=
  ⟨[{ path := "bg", value := .color "#fff" },
    { path := "\x7bbackground\x7d-hover", value := .color "#eee" },
    { path := "x", value := .text "\x7bbg\x7d-hover" }], by decide⟩

/-- The text follows the second move only if the first one has been made before it. -/
example :
    let moves := [("bg", "background"), ("\x7bbackground\x7d-hover", "hover")]
    let run (bs : List (String × String)) := (forTargets (moveTo .rename) bs bracedPath).1.tokens
    ¬ (run moves).Perm (run moves.reverse) := by
  decide +kernel

end Store
end DesignTokens
