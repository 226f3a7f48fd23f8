/-!
# Letter case and search in texts

Identifiers are compared after folding the ASCII capitals; all other characters stand for
themselves.  `occursIn` is the search for a run of characters inside another.
-/

namespace DesignTokens.Text

/-- The text with its ASCII capitals made small. -/
def lower (s : String) : String := String.ofList (s.toList.map Char.toLower)

/-- Whether `needle` is a run of consecutive characters of `hay`. -/
def occursIn (needle : List Char) : List Char → Bool
  | [] => needle.isEmpty
  | c :: cs => needle.isPrefixOf (c :: cs) || occursIn needle cs

def occurs (needle hay : String) : Bool := occursIn needle.toList hay.toList

/-- The maximal runs of a text between characters of a class, the empty ones left out. -/
def wordsBy (cut : Char → Bool) (cs : List Char) : List (List Char) :=
  (cs.splitOnP cut).filter fun w => !w.isEmpty

theorem toList_lower (s : String) : (lower s).toList = s.toList.map Char.toLower := by
  simp [lower]

/-! ## ASCII characters -/

/-- What holds of all ASCII characters can be checked for one after the other. -/
theorem forall_ascii {P : Char → Prop} (h : ∀ n < 128, P (Char.ofNat n)) :
    ∀ c : Char, c.toNat < 128 → P c := by
  intro c hc
  rw [← Char.ofNat_toNat c]
  exact h c.toNat hc

theorem toLower_of_not_capital {c : Char} (h : ¬ (65 ≤ c.toNat ∧ c.toNat ≤ 90)) :
    c.toLower = c := by
  unfold Char.toLower
  rw [dif_neg]
  rintro ⟨hfirst, hlast⟩
  exact h ⟨hfirst, hlast⟩

/-- Only ASCII characters have a small letter of their own. -/
theorem toLower_of_not_ascii {c : Char} (h : 128 ≤ c.toNat) : c.toLower = c :=
  toLower_of_not_capital (by omega)

end DesignTokens.Text
