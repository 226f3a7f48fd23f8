import DesignTokens.Proofs.Reference.Substitution
import DesignTokens.Proofs.Store.Tokens
import DesignTokens.Store.Resolution
import Mathlib.Tactic.Choose

/-!
# Paths that come to a value

A token can be settled when it refers to nothing, or when everything that it refers to can be
settled.  `Store.Known` is the least set of paths closed under this rule, and `Store.ComesTo` says
which value a path of it comes to: exactly one.  No order among the tokens enters into either.
-/

namespace DesignTokens

/-! ## Forms of a token -/

/-- How the value of a token depends on other tokens. -/
inductive Dependence where
  | independent
  | whole (target : String)
  | filled
  deriving DecidableEq, Repr

/-- A token without references depends on nothing, one that is a whole reference on its target, and
any other on the brace groups of its text. -/
def Token.dependence (t : Token) (known : String → Bool) : Dependence :=
  match t.targets known with
  | [] => .independent
  | [target] => if Reference.isWhole t.raw target then .whole target else .filled
  | _ => .filled

theorem Token.dependence_eq_independent_iff {t : Token} {known : String → Bool} :
    t.dependence known = .independent ↔ t.targets known = [] := by
  unfold Token.dependence
  split
  · next h => simp [h]
  · next h =>
    rw [h]
    split <;> simp
  · next h _ => simpa using h

namespace Store

variable {locked locked' : String → Bool} {s : Store locked} {s' : Store locked'} {t : Token}
  {p : String} {v v' : Value}

/-- The least set of paths that holds every token without references, every whole reference to a
member, and every other token if the bodies of all its brace groups are members. -/
inductive Known (s : Store locked) : String → Prop
  | independent {t : Token} (ht : t ∈ s.tokens) (hform : t.dependence s.contains = .independent) :
      s.Known t.path
  | whole {t : Token} {target : String} (ht : t ∈ s.tokens)
      (hform : t.dependence s.contains = .whole target) (htarget : s.Known target) :
      s.Known t.path
  | filled {t : Token} (ht : t ∈ s.tokens) (hform : t.dependence s.contains = .filled)
      (hbodies : ∀ p ∈ Reference.bodies t.raw, s.Known p) : s.Known t.path

/-- The value that a path comes to: the token's own, the one at the end of a whole reference, or
the one of the text with all its groups filled in. -/
inductive ComesTo (s : Store locked) : String → Value → Prop
  | independent {t : Token} (ht : t ∈ s.tokens) (hform : t.dependence s.contains = .independent) :
      s.ComesTo t.path t.value
  | whole {t : Token} {target : String} {v : Value} (ht : t ∈ s.tokens)
      (hform : t.dependence s.contains = .whole target) (htarget : s.ComesTo target v) :
      s.ComesTo t.path v
  | filled {t : Token} {values : String → Value} {text : String} (ht : t ∈ s.tokens)
      (hform : t.dependence s.contains = .filled)
      (hbodies : ∀ p ∈ Reference.bodies t.raw, s.ComesTo p (values p))
      (htext : Reference.substitute? t.raw (fun p => some (values p).render) = some text) :
      s.ComesTo t.path (Value.infer text)

theorem ComesTo.known (h : s.ComesTo p v) : s.Known p := by
  induction h with
  | independent ht hform => exact .independent ht hform
  | whole ht hform _ ih => exact .whole ht hform ih
  | filled ht hform _ _ ih => exact .filled ht hform ih

theorem Known.exists_comesTo (h : s.Known p) : ∃ v, s.ComesTo p v := by
  induction h with
  | @independent t ht hform => exact ⟨t.value, .independent ht hform⟩
  | whole ht hform _ ih =>
    rcases ih with ⟨v, hv⟩
    exact ⟨v, .whole ht hform hv⟩
  | @filled t ht hform _ ih =>
    have : Nonempty Value := ⟨t.value⟩
    choose! values hvalues using ih
    have hfilled : (Reference.substitute? t.raw fun p => some (values p).render).isSome = true :=
      Reference.isSome_substitute?_iff.mpr fun _ _ => rfl
    rcases Option.isSome_iff_exists.mp hfilled with ⟨text, htext⟩
    exact ⟨Value.infer text, .filled ht hform hvalues htext⟩

/-- A path comes to one value only. -/
theorem ComesTo.unique (h : s.ComesTo p v) (h' : s.ComesTo p v') : v = v' := by
  induction h generalizing v' with
  | @independent t ht hform =>
    generalize hp : t.path = p at h'
    cases h' with
    | independent hu => rw [eq_of_path_eq ht hu hp]
    | whole hu hform' => simp [← eq_of_path_eq ht hu hp, hform] at hform'
    | filled hu hform' => simp [← eq_of_path_eq ht hu hp, hform] at hform'
  | @whole t target v ht hform _ ih =>
    generalize hp : t.path = p at h'
    cases h' with
    | independent hu hform' => simp [← eq_of_path_eq ht hu hp, hform] at hform'
    | whole hu hform' htarget' =>
      rw [← eq_of_path_eq ht hu hp, hform] at hform'
      cases hform'
      exact ih htarget'
    | filled hu hform' => simp [← eq_of_path_eq ht hu hp, hform] at hform'
  | @filled t values text ht hform _ htext ih =>
    generalize hp : t.path = p at h'
    cases h' with
    | independent hu hform' => simp [← eq_of_path_eq ht hu hp, hform] at hform'
    | whole hu hform' => simp [← eq_of_path_eq ht hu hp, hform] at hform'
    | @filled u values' text' hu hform' hbodies' htext' =>
      cases eq_of_path_eq ht hu hp
      -- The two texts are filled in with the same values.
      have hsame : Reference.substitute? t.raw (fun p => some (values p).render) =
          Reference.substitute? t.raw fun p => some (values' p).render :=
        Reference.substitute?_congr fun p hmem => by rw [ih p hmem (hbodies' p hmem)]
      rw [hsame, htext'] at htext
      rw [Option.some.inj htext]

/-! ### Other orders -/

theorem ComesTo.of_perm (hperm : s.tokens.Perm s'.tokens) (h : s.ComesTo p v) :
    s'.ComesTo p v := by
  have hcontains := contains_eq_of_perm hperm
  induction h with
  | independent ht hform => exact .independent (hperm.mem_iff.mp ht) (hcontains ▸ hform)
  | whole ht hform _ ih => exact .whole (hperm.mem_iff.mp ht) (hcontains ▸ hform) ih
  | filled ht hform _ htext ih =>
    exact .filled (hperm.mem_iff.mp ht) (hcontains ▸ hform) ih htext

theorem known_iff_of_perm (hperm : s.tokens.Perm s'.tokens) : s.Known p ↔ s'.Known p := by
  constructor
  · intro h
    rcases h.exists_comesTo with ⟨v, hv⟩
    exact (hv.of_perm hperm).known
  · intro h
    rcases h.exists_comesTo with ⟨v, hv⟩
    exact (hv.of_perm hperm.symm).known

end Store

end DesignTokens
