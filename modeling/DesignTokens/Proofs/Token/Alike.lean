import DesignTokens.Proofs.Reference.Pieces
import DesignTokens.Token.Value

/-!
# Values that read alike

The key of a value is its hex colour in canonical form, and else the text that is written for it.
Two values share a key exactly if they are written alike or are hex colours of the same channels:
the canonical form gives back the channels, and no number is written with a `#` in front.

The key leaves the opacity of a colour out.  So values that share a key are the same if they agree
in their opacity as well, and only then.
-/

namespace DesignTokens

/-! ## Hex colours -/

namespace Rgb

variable {c : Rgb}

/-- The opacity that the digits after the `#` give; without digits of its own it is full. -/
def opacityOfDigits? : List Nat → Option Nat
  | [_, _, _] | [_, _, _, _, _, _] => some 255
  | [_, _, _, _, _, _, a, a'] => some (16 * a + a')
  | _ => none

/-- The opacity of the colour that a text denotes. -/
def opacity? (text : String) : Option Nat :=
  match text.toList with
  | '#' :: digits => (digits.mapM hexValue?).bind opacityOfDigits?
  | _ => none

/-- Every channel has two hexadecimal digits. -/
def IsInRange (c : Rgb) : Prop := c.red < 256 ∧ c.green < 256 ∧ c.blue < 256

theorem hexValue?_lt {ch : Char} {n : Nat} (h : hexValue? ch = some n) : n < 16 := by
  have hbelow : ∀ (first last : Char) (k : Nat), ch ≤ last →
      last.toNat - first.toNat + k < 16 → ch.toNat - first.toNat + k < 16 := by
    intro first last k hle hlast
    have hnat : ch.toNat ≤ last.toNat := hle
    omega
  unfold hexValue? at h
  split at h
  · next hch =>
    cases h
    exact hbelow '0' '9' 0 hch.2 (by decide)
  · split at h
    · next hch =>
      cases h
      exact hbelow 'a' 'f' 10 hch.2 (by decide)
    · split at h
      · next hch =>
        cases h
        exact hbelow 'A' 'F' 10 hch.2 (by decide)
      · cases h

theorem hexValue?_hexDigit {n : Nat} (h : n < 16) : hexValue? (hexDigit n) = some n := by
  have hall : ∀ n < 16, hexValue? (hexDigit n) = some n := by decide
  exact hall n h

theorem isBlank_hexDigit {n : Nat} (h : n < 16) : Text.isBlank (hexDigit n) = false := by
  have hall : ∀ n < 16, Text.isBlank (hexDigit n) = false := by decide
  exact hall n h

theorem lt_of_mem_mapM {digits : List Char} {ns : List Nat} (h : digits.mapM hexValue? = some ns) :
    ∀ n ∈ ns, n < 16 := by
  induction digits generalizing ns with
  | nil =>
    cases h
    exact fun n hn => absurd hn List.not_mem_nil
  | cons ch digits ih =>
    rw [List.mapM_cons] at h
    obtain ⟨n, hn, h⟩ := Option.bind_eq_some_iff.mp h
    obtain ⟨rest, hrest, h⟩ := Option.bind_eq_some_iff.mp h
    cases h
    exact List.forall_mem_cons.mpr ⟨hexValue?_lt hn, ih hrest⟩

theorem ofDigits?_isInRange {ns : List Nat} (hlt : ∀ n ∈ ns, n < 16) (h : ofDigits? ns = some c) :
    c.IsInRange := by
  unfold ofDigits? at h
  split at h
  case h_4 => cases h
  all_goals
    cases h
    simp only [List.mem_cons, List.not_mem_nil, or_false, forall_eq_or_imp, forall_eq] at hlt
    unfold IsInRange
    dsimp only
    omega

theorem isInRange_of_ofText? {text : String} (h : ofText? text = some c) : c.IsInRange := by
  unfold ofText? ofChars? at h
  split at h
  · obtain ⟨ns, hns, h⟩ := Option.bind_eq_some_iff.mp h
    exact ofDigits?_isInRange (lt_of_mem_mapM hns) h
  · cases h

/-- A text that denotes a colour gives it an opacity. -/
theorem exists_opacity {text : String} (h : ofText? text = some c) :
    ∃ a, opacity? text = some a := by
  unfold ofText? ofChars? at h
  split at h
  · next digits hchars =>
    obtain ⟨ns, hns, h⟩ := Option.bind_eq_some_iff.mp h
    have hopacity : opacity? text = opacityOfDigits? ns := by simp [opacity?, hchars, hns]
    rw [hopacity]
    unfold ofDigits? at h
    split at h
    · exact ⟨_, rfl⟩
    · exact ⟨_, rfl⟩
    · exact ⟨_, rfl⟩
    · cases h
  · cases h

/-- The canonical text of a colour denotes the colour. -/
theorem ofText?_toHex (h : c.IsInRange) : ofText? c.toHex = some c := by
  obtain ⟨hr, hg, hb⟩ := h
  have hhigh : ∀ n < 256, hexValue? (hexDigit (n / 16)) = some (n / 16) := fun n hn =>
    hexValue?_hexDigit (by omega)
  have hlow : ∀ n, hexValue? (hexDigit (n % 16)) = some (n % 16) := fun n =>
    hexValue?_hexDigit (by omega)
  unfold ofText? toHex channelDigits
  simp [ofChars?, ofDigits?, hhigh _ hr, hhigh _ hg, hhigh _ hb, hlow, Nat.div_add_mod]

theorem trim_toHex (h : c.IsInRange) : Text.trim c.toHex = c.toHex := by
  obtain ⟨hr, hg, hb⟩ := h
  unfold Text.trim toHex channelDigits
  rw [String.toList_ofList, Text.trimChars_of_noBlank]
  intro ch hch
  simp only [List.mem_cons, List.mem_append, List.not_mem_nil, or_false] at hch
  rcases hch with rfl | ((rfl | rfl) | rfl | rfl) | rfl | rfl
  case inl => decide
  all_goals exact isBlank_hexDigit (by omega)

end Rgb

/-! ## Numbers -/

namespace Decimal

/-- The characters that the text of a number can start with. -/
def leadsNumber (ch : Char) : Bool := ch.isDigit || ch == '-' || ch == 'N' || ch == 'i'

theorem not_isBlank_of_leadsNumber {ch : Char} (h : leadsNumber ch = true) :
    Text.isBlank ch = false ∧ ch ≠ '#' := by
  simp only [leadsNumber, Bool.or_eq_true, beq_iff_eq, or_assoc] at h
  rcases h with hdigit | rfl | rfl | rfl
  case inl =>
    have hle : ∀ a b : Char, a ≤ b → a.toNat ≤ b.toNat := fun a b hab => hab
    simp only [Char.isDigit, Bool.and_eq_true, decide_eq_true_eq] at hdigit
    have hfirst : 48 ≤ ch.toNat := hle '0' ch hdigit.1
    have hlast : ch.toNat ≤ 57 := hle ch '9' hdigit.2
    constructor
    · simp only [Text.isBlank, Bool.or_eq_false_iff, Bool.and_eq_false_iff, decide_eq_false_iff_not,
        beq_eq_false_iff_ne]
      omega
    · rintro rfl
      exact absurd hfirst (by decide)
  all_goals decide

theorem leads_digits (n : Nat) : (Nat.toDigits 10 n).head?.any leadsNumber = true := by
  cases hdigits : Nat.toDigits 10 n with
  | nil => exact absurd hdigits Nat.toDigits_ne_nil
  | cons ch rest =>
    have hch : ch.isDigit = true :=
      Nat.isDigit_of_mem_toDigits (by decide) (by decide) (hdigits ▸ List.mem_cons_self)
    simp [leadsNumber, hch]

theorem leads_append {cs : List Char} (h : cs.head?.any leadsNumber = true) (ds : List Char) :
    (cs ++ ds).head?.any leadsNumber = true := by
  cases cs with
  | nil => cases h
  | cons ch cs => exact h

theorem leads_positional (d : Scaled) : d.positional.toList.head?.any leadsNumber = true := by
  have hdigits := leads_digits d.digits
  unfold Scaled.positional
  simp only [Nat.toString_eq_repr, Nat.toList_repr]
  split
  · rw [String.toList_append, String.toList_ofList]
    exact leads_append hdigits _
  · split
    · next hwhole =>
      -- At least one digit stands before the point.
      have hsome : (((Nat.toDigits 10 d.digits).length : Int) + d.power).toNat ≠ 0 := by omega
      rw [String.append_assoc, String.toList_append, String.toList_ofList]
      refine leads_append ?_ _
      rwa [List.head?_take, if_neg hsome]
    · simp only [String.append_assoc, String.toList_append]
      exact leads_append (by decide) _

theorem leads_signText {text : String} (negative : Bool)
    (h : text.toList.head?.any leadsNumber = true) :
    (signText negative ++ text).toList.head?.any leadsNumber = true := by
  cases negative with
  | true => simp [signText, leadsNumber]
  | false => simpa [signText] using h

theorem leads_plain (x : Float) : (plain x).toList.head?.any leadsNumber = true := by
  unfold plain
  split
  · decide
  · exact leads_signText _ (by decide)
  · exact leads_signText _ (by decide)
  · exact leads_signText _ (leads_positional _)

end Decimal

/-! ## Keys -/

namespace Value

variable {v w : Value} {c : Rgb}

/-- The channels of a value that is written as a hex colour. -/
def rgb? (v : Value) : Option Rgb := Rgb.ofText? (Text.trim v.render)

def opacity? (v : Value) : Option Nat := Rgb.opacity? (Text.trim v.render)

/-- The values are written alike, or they are hex colours that differ in their opacity at most. -/
def Alike (v w : Value) : Prop := v.render = w.render ∨ ∃ c, v.rgb? = some c ∧ w.rgb? = some c

/-- The values are written alike, or they are hex colours that do not differ. -/
def Same (v w : Value) : Prop :=
  v.render = w.render ∨ ∃ c a, (v.rgb? = some c ∧ v.opacity? = some a) ∧
    w.rgb? = some c ∧ w.opacity? = some a

/-- What tells a value from others in an audit. -/
def key (v : Value) : String := v.hexColor?.getD v.render

theorem Alike.refl (v : Value) : v.Alike v := .inl rfl

theorem Same.refl (v : Value) : v.Same v := .inl rfl

/-- A number is not written as a hex colour. -/
theorem rgb?_eq_none_of_leads (h : v.render.toList.head?.any Decimal.leadsNumber = true) :
    v.rgb? = none := by
  cases hchars : v.render.toList with
  | nil =>
    rw [hchars] at h
    cases h
  | cons ch rest =>
    rw [hchars] at h
    obtain ⟨hblank, hhash⟩ := Decimal.not_isBlank_of_leadsNumber h
    obtain ⟨rest', htrim⟩ := @Text.trimEnd_cons ch rest hblank
    unfold rgb? Rgb.ofText?
    rw [Text.toList_trim, hchars, Text.trimChars, Text.trimStart_of_head hblank, htrim]
    unfold Rgb.ofChars?
    split
    · next heq => exact absurd (List.cons.inj heq).1 hhash
    · rfl

/-- The hex colour of a value is that of its channels. -/
theorem hexColor?_eq (v : Value) : v.hexColor? = v.rgb?.map Rgb.toHex := by
  cases v with
  | dimension size unit =>
    rw [rgb?_eq_none_of_leads]
    · rfl
    · rw [render, String.toList_append]
      exact Decimal.leads_append (Decimal.leads_plain size) _
  | number size =>
    rw [rgb?_eq_none_of_leads]
    · rfl
    · rw [render]
      exact Decimal.leads_plain size
  | _ => rfl

theorem key_of_rgb? (h : v.rgb? = some c) : v.key = c.toHex := by
  rw [key, hexColor?_eq, h]
  rfl

theorem key_of_rgb?_eq_none (h : v.rgb? = none) : v.key = v.render := by
  rw [key, hexColor?_eq, h]
  rfl

/-- A value that is no hex colour has no canonical colour for its key. -/
theorem key_ne_toHex (h : v.rgb? = none) (hc : c.IsInRange) : v.key ≠ c.toHex := by
  intro hkey
  rw [key_of_rgb?_eq_none h] at hkey
  rw [rgb?, hkey, Rgb.trim_toHex hc, Rgb.ofText?_toHex hc] at h
  cases h

/-- Values share a key exactly if they are written alike or are hex colours of the same channels. -/
theorem key_eq_iff : v.key = w.key ↔ v.Alike w := by
  have hrange : ∀ {v : Value} {c : Rgb}, v.rgb? = some c → c.IsInRange :=
    fun h => Rgb.isInRange_of_ofText? h
  constructor
  · intro h
    cases hv : v.rgb? with
    | none =>
      cases hw : w.rgb? with
      | none =>
        rw [key_of_rgb?_eq_none hv, key_of_rgb?_eq_none hw] at h
        exact .inl h
      | some d => exact absurd (h.trans (key_of_rgb? hw)) (key_ne_toHex hv (hrange hw))
    | some c =>
      cases hw : w.rgb? with
      | none => exact absurd (h.symm.trans (key_of_rgb? hv)) (key_ne_toHex hw (hrange hv))
      | some d =>
        rw [key_of_rgb? hv, key_of_rgb? hw] at h
        have hcd := Rgb.ofText?_toHex (hrange hv)
        rw [h, Rgb.ofText?_toHex (hrange hw)] at hcd
        exact .inr ⟨c, hv, hcd ▸ hw⟩
  · rintro (hrender | ⟨c, hv, hw⟩)
    · have hrgb : v.rgb? = w.rgb? := by rw [rgb?, hrender, rgb?]
      rw [key, key, hexColor?_eq, hexColor?_eq, hrgb, hrender]
    · rw [key_of_rgb? hv, key_of_rgb? hw]

/-- Values that share a key are the same exactly if they agree in their opacity. -/
theorem Alike.same_iff (h : v.Alike w) : v.Same w ↔ v.opacity? = w.opacity? := by
  constructor
  · rintro (hrender | ⟨c, a, ⟨_, hv⟩, _, hw⟩)
    · rw [opacity?, hrender, opacity?]
    · rw [hv, hw]
  · intro hopacity
    rcases h with hrender | ⟨c, hv, hw⟩
    · exact .inl hrender
    · obtain ⟨a, ha⟩ := Rgb.exists_opacity hv
      exact .inr ⟨c, a, ⟨hv, ha⟩, hw, hopacity ▸ ha⟩

end Value

end DesignTokens
