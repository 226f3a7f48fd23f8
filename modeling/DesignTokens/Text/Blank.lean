/-!
# Blank characters and trimming

A character is blank when Unicode gives it the property `White_Space`.  Trimming drops the blank
characters at both ends of a text and keeps those inside it.  Every comparison of a text with a
token path is made on the trimmed text, so the two facts used again and again are that trimming
twice is trimming once and that a trimmed text neither starts nor ends blank.
-/

namespace DesignTokens.Text

/-- The code points with the Unicode property `White_Space`. -/
def isBlank (c : Char) : Bool :=
  let n := c.toNat
  (0x09 ≤ n && n ≤ 0x0D) || n == 0x20 || n == 0x85 || n == 0xA0 || n == 0x1680 ||
    (0x2000 ≤ n && n ≤ 0x200A) || n == 0x2028 || n == 0x2029 || n == 0x202F || n == 0x205F ||
    n == 0x3000

/-- A text without its leading blank characters. -/
def trimStart (cs : List Char) : List Char := cs.dropWhile isBlank

/-- A text without its trailing blank characters. -/
def trimEnd : List Char → List Char
  | [] => []
  | c :: cs =>
    match trimEnd cs with
    | [] => if isBlank c then [] else [c]
    | d :: ds => c :: d :: ds

/-- A text without blank characters at either end. -/
def trimChars (cs : List Char) : List Char := trimEnd (trimStart cs)

def trim (s : String) : String := String.ofList (trimChars s.toList)

def hasBlank (s : String) : Bool := s.toList.any isBlank

theorem toList_trim (s : String) : (trim s).toList = trimChars s.toList := by
  simp [trim]

/-! ## Laws of trimming -/

theorem trimStart_head {cs : List Char} {c : Char} {rest : List Char}
    (h : trimStart cs = c :: rest) : isBlank c = false := by
  induction cs with
  | nil => simp [trimStart] at h
  | cons d ds ih =>
    unfold trimStart at h
    rw [List.dropWhile_cons] at h
    split at h
    · exact ih h
    · next hd =>
      cases h
      simpa using hd

theorem trimStart_of_head {c : Char} {rest : List Char} (h : isBlank c = false) :
    trimStart (c :: rest) = c :: rest := by
  simp [trimStart, h]

theorem trimEnd_trimEnd (cs : List Char) : trimEnd (trimEnd cs) = trimEnd cs := by
  induction cs with
  | nil => rfl
  | cons c cs ih =>
    cases h : trimEnd cs with
    | nil =>
      by_cases hc : isBlank c = true
      · simp [trimEnd, h, hc]
      · simp [trimEnd, h, hc]
    | cons d ds =>
      rw [h] at ih
      have hc : trimEnd (c :: cs) = c :: d :: ds := by rw [trimEnd, h]
      have hd : trimEnd (c :: d :: ds) = c :: d :: ds := by rw [trimEnd, ih]
      rw [hc, hd]

/-- Trimming the end leaves the first character of a text that is not blank throughout. -/
theorem trimEnd_cons {c : Char} {rest : List Char} (h : isBlank c = false) :
    ∃ rest', trimEnd (c :: rest) = c :: rest' := by
  cases hr : trimEnd rest with
  | nil => exact ⟨[], by simp [trimEnd, hr, h]⟩
  | cons d ds => exact ⟨d :: ds, by simp [trimEnd, hr]⟩

theorem trimChars_trimChars (cs : List Char) : trimChars (trimChars cs) = trimChars cs := by
  unfold trimChars
  cases h : trimStart cs with
  | nil => rfl
  | cons c rest =>
    have hc := trimStart_head h
    obtain ⟨rest', hr⟩ := @trimEnd_cons c rest hc
    rw [hr, trimStart_of_head hc, ← hr, trimEnd_trimEnd]

end DesignTokens.Text
