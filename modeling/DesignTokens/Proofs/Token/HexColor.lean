import DesignTokens.Proofs.Token.Alike
import DesignTokens.Text.Search
import Mathlib.Data.String.Basic

/-!
# Reading and writing hex colours

A text is a hex colour exactly if it is a `#` with three, six or eight hexadecimal digits behind
it.  Its canonical text can be spelled from the digits alone: three of them are doubled, those of
an opacity are dropped, and capitals are made small.  The canonical text denotes the same colour
and is its own canonical text.

The digits are counted and cut as characters.  Counting and cutting their bytes is the same here,
although a cut by bytes fails in general, when it falls inside a character: no cut is made before
all characters are known to be digits, and then each of them is a single byte.
-/

namespace DesignTokens

/-! ## Cutting a text by bytes -/

namespace Text

/-- The part of a text between two byte offsets.  There is none if the second one is before the
first, or one of them is inside a character or behind the end. -/
def between? (text : String) (first last : Nat) : Option String :=
  if String.Pos.Raw.IsValid text ⟨first⟩ ∧ String.Pos.Raw.IsValid text ⟨last⟩ ∧ first ≤ last then
    some (String.Pos.Raw.extract text ⟨first⟩ ⟨last⟩)
  else none

theorem between?_ofList (front part back : List Char) :
    between? (String.ofList (front ++ part ++ back)) (String.utf8Len front)
      (String.utf8Len front + String.utf8Len part) = some (String.ofList part) := by
  have hfirst : String.Pos.Raw.IsValid (String.ofList (front ++ part ++ back))
      ⟨String.utf8Len front⟩ := by
    refine String.Pos.Raw.isValid_iff_exists_append.mpr
      ⟨String.ofList front, String.ofList (part ++ back), ?_, ?_⟩
    · rw [← String.ofList_append, List.append_assoc]
    · rw [String.rawEndPos_ofList]
  have hlast : String.Pos.Raw.IsValid (String.ofList (front ++ part ++ back))
      ⟨String.utf8Len front + String.utf8Len part⟩ := by
    refine String.Pos.Raw.isValid_iff_exists_append.mpr
      ⟨String.ofList (front ++ part), String.ofList back, ?_, ?_⟩
    · rw [← String.ofList_append]
    · rw [String.rawEndPos_ofList, String.utf8Len_append]
  rw [between?, if_pos ⟨hfirst, hlast, Nat.le_add_right _ _⟩, String.extract_of_valid]

theorem utf8Len_eq_length {cs : List Char} (h : ∀ c ∈ cs, c.utf8Size = 1) :
    String.utf8Len cs = cs.length := by
  induction cs with
  | nil => rfl
  | cons c cs ih =>
    obtain ⟨hc, hcs⟩ := List.forall_mem_cons.mp h
    rw [String.utf8Len_cons, List.length_cons, hc, ih hcs]

/-- Among characters of a single byte a cut by bytes is one by characters. -/
theorem between?_of_singleBytes (front part back : List Char)
    (h : ∀ c ∈ front ++ part ++ back, c.utf8Size = 1) :
    between? (String.ofList (front ++ part ++ back)) front.length (front.length + part.length) =
      some (String.ofList part) := by
  simp only [List.forall_mem_append] at h
  obtain ⟨⟨hfront, hpart⟩, _⟩ := h
  rw [← utf8Len_eq_length hfront, ← utf8Len_eq_length hpart, between?_ofList]

end Text

namespace Rgb

variable {c : Rgb} {text : String} {digits : List Char} {ns : List Nat}

/-! ## Hexadecimal digits -/

/-- The hexadecimal digits by increasing value. -/
def smallDigits : List Char :=
  ['0', '1', '2', '3', '4', '5', '6', '7', '8', '9', 'a', 'b', 'c', 'd', 'e', 'f']

/-- A hexadecimal digit in either letter case. -/
def IsHexDigit (ch : Char) : Prop := ch.toLower ∈ smallDigits

instance (ch : Char) : Decidable (IsHexDigit ch) :=
  inferInstanceAs (Decidable (ch.toLower ∈ smallDigits))

def digitValue (ch : Char) : Nat := smallDigits.idxOf ch.toLower

theorem IsHexDigit.toNat_lt {ch : Char} (h : IsHexDigit ch) : ch.toNat < 128 := by
  by_contra hge
  have hall : (smallDigits.all fun d => decide (d.toNat < 128)) = true := by decide
  rw [IsHexDigit, Text.toLower_of_not_ascii (by omega)] at h
  exact hge (of_decide_eq_true (List.all_eq_true.mp hall ch h))

theorem IsHexDigit.utf8Size_eq {ch : Char} (h : IsHexDigit ch) : ch.utf8Size = 1 := by
  have hle : ch.toNat ≤ 127 := Nat.le_of_lt_succ h.toNat_lt
  exact Char.utf8Size_eq_one_iff.mpr hle

/-- The value of a digit is its place among the digits. -/
theorem hexValue?_eq (ch : Char) : hexValue? ch = smallDigits.idxOf? ch.toLower := by
  -- The ASCII characters are gone through one by one; all others are beyond the last digit.
  have hascii : ∀ ch : Char, ch.toNat < 128 → hexValue? ch = smallDigits.idxOf? ch.toLower :=
    Text.forall_ascii (by decide)
  by_cases hlt : ch.toNat < 128
  · exact hascii ch hlt
  · have hnone : hexValue? ch = none := by
      have hbelow : ∀ last : Char, last.toNat < 128 → ¬ ch ≤ last := by
        intro last hlast hle
        have hnat : ch.toNat ≤ last.toNat := hle
        omega
      unfold hexValue?
      rw [if_neg fun h => hbelow '9' (by decide) h.2, if_neg fun h => hbelow 'f' (by decide) h.2,
        if_neg fun h => hbelow 'F' (by decide) h.2]
    rw [hnone, List.idxOf?_eq_none_iff.mpr]
    exact fun hmem => hlt (IsHexDigit.toNat_lt hmem)

theorem hexValue?_eq_some_iff {ch : Char} {n : Nat} :
    hexValue? ch = some n ↔ IsHexDigit ch ∧ n = digitValue ch := by
  rw [hexValue?_eq, digitValue, List.idxOf_eq_getD_idxOf?, IsHexDigit, ← List.isSome_idxOf?]
  cases smallDigits.idxOf? ch.toLower with
  | none => simp
  | some m => simp [eq_comm]

theorem mapM_hexValue?_eq_some_iff : digits.mapM hexValue? = some ns ↔
    (∀ ch ∈ digits, IsHexDigit ch) ∧ ns = digits.map digitValue := by
  induction digits generalizing ns with
  | nil => simp [eq_comm]
  | cons ch digits ih =>
    simp only [List.mapM_cons, Option.bind_eq_bind, Option.bind_eq_some_iff, hexValue?_eq_some_iff,
      ih, Option.pure_def, Option.some.injEq, List.forall_mem_cons, List.map_cons]
    constructor
    · rintro ⟨_, ⟨hch, rfl⟩, _, ⟨hdigits, rfl⟩, rfl⟩
      exact ⟨⟨hch, hdigits⟩, rfl⟩
    · rintro ⟨⟨hch, hdigits⟩, rfl⟩
      exact ⟨_, ⟨hch, rfl⟩, _, ⟨hdigits, rfl⟩, rfl⟩

theorem IsHexDigit.hexDigit_digitValue {ch : Char} (h : IsHexDigit ch) :
    hexDigit (digitValue ch) = ch.toLower := by
  have hall : (smallDigits.all fun d => hexDigit (smallDigits.idxOf d) == d) = true := by decide
  exact eq_of_beq (List.all_eq_true.mp hall _ h)

theorem IsHexDigit.digitValue_lt {ch : Char} (h : IsHexDigit ch) : digitValue ch < 16 :=
  List.idxOf_lt_length_iff.mpr h

/-! ## Which texts are colours -/

/-- Three, six or eight characters, all of them hexadecimal digits. -/
structure AreColorDigits (digits : List Char) : Prop where
  length : digits.length = 3 ∨ digits.length = 6 ∨ digits.length = 8
  hex : ∀ ch ∈ digits, IsHexDigit ch

def IsHexColor (text : String) : Prop :=
  ∃ digits, text.toList = '#' :: digits ∧ AreColorDigits digits

/-- The text is a `#` and six hexadecimal digits without capitals. -/
def IsCanonical (text : String) : Prop :=
  ∃ digits, text.toList = '#' :: digits ∧ digits.length = 6 ∧ ∀ ch ∈ digits, ch ∈ smallDigits

theorem isSome_ofDigits?_iff :
    (ofDigits? ns).isSome = true ↔ ns.length = 3 ∨ ns.length = 6 ∨ ns.length = 8 := by
  unfold ofDigits?
  split
  case h_4 h3 h6 h8 =>
    simp only [Option.isSome_none, Bool.false_eq_true, false_iff]
    rintro (h | h | h)
    · obtain ⟨r, g, b, rfl⟩ := List.length_eq_three.mp h
      exact h3 _ _ _ rfl
    · match ns, h with
      | [r, r', g, g', b, b'], _ => exact h6 _ _ _ _ _ _ rfl
    · match ns, h with
      | [r, r', g, g', b, b', a, a'], _ => exact h8 _ _ _ _ _ _ _ _ rfl
  all_goals simp

theorem ofText?_of_hex (hchars : text.toList = '#' :: digits)
    (hhex : ∀ ch ∈ digits, IsHexDigit ch) :
    ofText? text = ofDigits? (digits.map digitValue) := by
  rw [ofText?, hchars, ofChars?, mapM_hexValue?_eq_some_iff.mpr ⟨hhex, rfl⟩, Option.bind_some]

theorem ofText?_eq_some_iff : ofText? text = some c ↔ ∃ digits, text.toList = '#' :: digits ∧
    (∀ ch ∈ digits, IsHexDigit ch) ∧ ofDigits? (digits.map digitValue) = some c := by
  constructor
  · intro h
    have hread := h
    unfold ofText? ofChars? at hread
    split at hread
    · next digits hchars =>
      obtain ⟨ns, hns, _⟩ := Option.bind_eq_some_iff.mp hread
      obtain ⟨hhex, _⟩ := mapM_hexValue?_eq_some_iff.mp hns
      exact ⟨digits, hchars, hhex, ofText?_of_hex hchars hhex ▸ h⟩
    · cases hread
  · rintro ⟨digits, hchars, hhex, hc⟩
    rw [ofText?_of_hex hchars hhex, hc]

theorem ofText?_eq_none
    (h : ∀ digits, text.toList = '#' :: digits → ¬ ∀ ch ∈ digits, IsHexDigit ch) :
    ofText? text = none := by
  refine Option.eq_none_iff_forall_ne_some.mpr fun c hc => ?_
  obtain ⟨digits, hchars, hhex, _⟩ := ofText?_eq_some_iff.mp hc
  exact h digits hchars hhex

theorem isSome_ofText?_iff : (ofText? text).isSome = true ↔ IsHexColor text := by
  simp only [Option.isSome_iff_exists, ofText?_eq_some_iff]
  constructor
  · rintro ⟨c, digits, hchars, hhex, hc⟩
    have hlength := isSome_ofDigits?_iff.mp (Option.isSome_of_eq_some hc)
    rw [List.length_map] at hlength
    exact ⟨digits, hchars, hlength, hhex⟩
  · rintro ⟨digits, hchars, hlength, hhex⟩
    have hsome : (ofDigits? (digits.map digitValue)).isSome = true := by
      rwa [isSome_ofDigits?_iff, List.length_map]
    obtain ⟨c, hc⟩ := Option.isSome_iff_exists.mp hsome
    exact ⟨c, digits, hchars, hhex, hc⟩

/-! ## The canonical text -/

/-- Three digits are doubled, and those of an opacity are dropped. -/
def sixDigits {α : Type} : List α → List α
  | [r, g, b] => [r, r, g, g, b, b]
  | ds => ds.take 6

/-- The text of a hex colour, written with six digits and without capitals. -/
def canonical (text : String) : String :=
  String.ofList ('#' :: (sixDigits (text.toList.drop 1)).map Char.toLower)

theorem sixDigits_map {α β : Type} (f : α → β) (ds : List α) :
    sixDigits (ds.map f) = (sixDigits ds).map f := by
  match ds with
  | [] | [_] | [_, _] | [_, _, _] => rfl
  | _ :: _ :: _ :: _ :: _ => simp [sixDigits, List.map_take]

theorem mem_of_mem_sixDigits {α : Type} {ds : List α} {a : α} (h : a ∈ sixDigits ds) : a ∈ ds := by
  unfold sixDigits at h
  split at h
  · simpa using h
  · exact List.mem_of_mem_take h

theorem length_sixDigits {α : Type} {ds : List α}
    (h : ds.length = 3 ∨ ds.length = 6 ∨ ds.length = 8) : (sixDigits ds).length = 6 := by
  match ds with
  | [] | [_] | [_, _] => simp at h
  | [_, _, _] => rfl
  | _ :: _ :: _ :: _ :: _ =>
    simp only [sixDigits, List.length_take, List.length_cons] at h ⊢
    omega

theorem channelDigits_eq {m n : Nat} (h : n < 16) :
    channelDigits (16 * m + n) = [hexDigit m, hexDigit n] := by
  have hhigh : (16 * m + n) / 16 = m := by omega
  have hlow : (16 * m + n) % 16 = n := by omega
  rw [channelDigits, hhigh, hlow]

theorem toHex_of_ofDigits? (hlt : ∀ n ∈ ns, n < 16) (h : ofDigits? ns = some c) :
    c.toHex = String.ofList ('#' :: (sixDigits ns).map hexDigit) := by
  unfold ofDigits? at h
  split at h
  case h_4 => cases h
  all_goals
    cases h
    simp only [List.mem_cons, List.not_mem_nil, or_false, forall_eq_or_imp, forall_eq] at hlt
    simp [toHex, channelDigits_eq, sixDigits, hlt]

theorem toHex_of_ofText? (h : ofText? text = some c) : c.toHex = canonical text := by
  obtain ⟨digits, hchars, hhex, hc⟩ := ofText?_eq_some_iff.mp h
  have hlt : ∀ n ∈ digits.map digitValue, n < 16 := by
    simpa using fun ch hch => (hhex ch hch).digitValue_lt
  have hwritten : (sixDigits digits).map (hexDigit ∘ digitValue) =
      (sixDigits digits).map Char.toLower :=
    List.map_congr_left fun ch hch => (hhex ch (mem_of_mem_sixDigits hch)).hexDigit_digitValue
  rw [toHex_of_ofDigits? hlt hc, sixDigits_map, List.map_map, hwritten, canonical, hchars,
    List.drop_one, List.tail_cons]

theorem isCanonical_canonical (h : IsHexColor text) : IsCanonical (canonical text) := by
  obtain ⟨digits, hchars, hdigits⟩ := h
  refine ⟨(sixDigits digits).map Char.toLower, ?_, ?_, ?_⟩
  · rw [canonical, String.toList_ofList, hchars, List.drop_one, List.tail_cons]
  · rw [List.length_map, length_sixDigits hdigits.length]
  · exact List.forall_mem_map.mpr fun ch hch => hdigits.hex ch (mem_of_mem_sixDigits hch)

/-- The canonical text of a colour denotes the colour. -/
theorem ofText?_canonical (h : IsHexColor text) : ofText? (canonical text) = ofText? text := by
  obtain ⟨c, hc⟩ := Option.isSome_iff_exists.mp (isSome_ofText?_iff.mpr h)
  rw [← toHex_of_ofText? hc, hc, ofText?_toHex (isInRange_of_ofText? hc)]

theorem isHexColor_canonical (h : IsHexColor text) : IsHexColor (canonical text) := by
  rwa [← isSome_ofText?_iff, ofText?_canonical h, isSome_ofText?_iff]

theorem canonical_canonical (h : IsHexColor text) :
    canonical (canonical text) = canonical text := by
  obtain ⟨c, hc⟩ := Option.isSome_iff_exists.mp (isSome_ofText?_iff.mpr h)
  have hagain : ofText? (canonical text) = some c := (ofText?_canonical h).trans hc
  rw [← toHex_of_ofText? hagain, toHex_of_ofText? hc]

theorem trim_canonical (h : IsHexColor text) : Text.trim (canonical text) = canonical text := by
  obtain ⟨c, hc⟩ := Option.isSome_iff_exists.mp (isSome_ofText?_iff.mpr h)
  rw [← toHex_of_ofText? hc, trim_toHex (isInRange_of_ofText? hc)]

/-! ## Reading by bytes -/

/-- The number that hexadecimal digits denote, if there are any and it is below 256. -/
def channel? (part : String) : Option Nat :=
  let n := part.toList.foldl (fun n ch => 16 * n + digitValue ch) 0
  if part ≠ "" ∧ (part.toList.all fun ch => decide (IsHexDigit ch)) ∧ n < 256 then some n else none

/-- The colour whose channels are written in the three parts. -/
def ofParts? (parts : List String) : Option Rgb :=
  (parts.mapM channel?).bind fun
    | [r, g, b] => some ⟨r, g, b⟩
    | _ => none

/-- The colour that digits denote, found by counting and cutting their bytes.  The outer result is
missing if a cut fails. -/
def ofDigitBytes? (digits : String) : Option (Option Rgb) :=
  match digits.utf8ByteSize with
  | 3 => some (ofParts? (digits.toList.map fun ch => String.ofList [ch, ch]))
  | 6 | 8 => ([0, 2, 4].mapM fun first => Text.between? digits first (first + 2)).map ofParts?
  | _ => some none

/-- The colour that a text denotes.  Its bytes are counted and cut after every character behind the
`#` was found to be a digit. -/
def ofBytes? (text : String) : Option (Option Rgb) :=
  match text.toList with
  | '#' :: digits =>
    if digits.all fun ch => decide (IsHexDigit ch) then ofDigitBytes? (String.ofList digits)
    else some none
  | _ => some none

theorem channel?_pair {high low : Char} (hhigh : IsHexDigit high) (hlow : IsHexDigit low) :
    channel? (String.ofList [high, low]) = some (16 * digitValue high + digitValue low) := by
  have hlt : 16 * digitValue high + digitValue low < 256 := by
    have hh := hhigh.digitValue_lt
    have hl := hlow.digitValue_lt
    omega
  simp [channel?, hhigh, hlow, hlt]

theorem utf8Size_of_hex (hhex : ∀ ch ∈ digits, IsHexDigit ch) : ∀ ch ∈ digits, ch.utf8Size = 1 :=
  fun ch hch => (hhex ch hch).utf8Size_eq

/-- No cut fails between hexadecimal digits. -/
theorem cuts_of_hex {r r' g g' b b' : Char} {rest : List Char}
    (hhex : ∀ ch ∈ r :: r' :: g :: g' :: b :: b' :: rest, IsHexDigit ch) :
    ([0, 2, 4].mapM fun first =>
      Text.between? (String.ofList (r :: r' :: g :: g' :: b :: b' :: rest)) first (first + 2)) =
      some [String.ofList [r, r'], String.ofList [g, g'], String.ofList [b, b']] := by
  have hsingle := utf8Size_of_hex hhex
  have hr := Text.between?_of_singleBytes [] [r, r'] (g :: g' :: b :: b' :: rest) hsingle
  have hg := Text.between?_of_singleBytes [r, r'] [g, g'] (b :: b' :: rest) hsingle
  have hb := Text.between?_of_singleBytes [r, r', g, g'] [b, b'] rest hsingle
  simp only [List.nil_append, List.cons_append, List.length_cons, List.length_nil, Nat.zero_add,
    Nat.reduceAdd] at hr hg hb
  simp only [List.mapM_cons, List.mapM_nil, Nat.zero_add, Nat.reduceAdd, hr, hg, hb,
    Option.bind_eq_bind, Option.bind_some, Option.pure_def]

theorem ofParts?_pairs {r r' g g' b b' : Char}
    (hhex : ∀ ch ∈ [r, r', g, g', b, b'], IsHexDigit ch) :
    ofParts? [String.ofList [r, r'], String.ofList [g, g'], String.ofList [b, b']] =
      ofDigits? ([r, r', g, g', b, b'].map digitValue) := by
  simp only [List.forall_mem_cons] at hhex
  obtain ⟨hr, hr', hg, hg', hb, hb', _⟩ := hhex
  simp only [ofParts?, List.mapM_cons, List.mapM_nil, channel?_pair hr hr', channel?_pair hg hg',
    channel?_pair hb hb', Option.bind_eq_bind, Option.bind_some, Option.pure_def, List.map_cons,
    List.map_nil, ofDigits?]

theorem ofDigitBytes?_of_hex (hhex : ∀ ch ∈ digits, IsHexDigit ch) :
    ofDigitBytes? (String.ofList digits) = some (ofDigits? (digits.map digitValue)) := by
  have hsix : ∀ ch ∈ sixDigits digits, IsHexDigit ch :=
    fun ch hch => hhex ch (mem_of_mem_sixDigits hch)
  rw [ofDigitBytes?, String.utf8ByteSize_ofList, Text.utf8Len_eq_length (utf8Size_of_hex hhex),
    String.toList_ofList]
  -- In each of the three lengths the parts that are read hold the six digits.
  split
  · next hlength =>
    match digits, hlength with
    | [r, g, b], _ => exact congrArg some (ofParts?_pairs hsix)
  · next hlength =>
    match digits, hlength with
    | [r, r', g, g', b, b'], _ => rw [cuts_of_hex hhex, Option.map_some, ofParts?_pairs hsix]
  · next hlength =>
    match digits, hlength with
    | [r, r', g, g', b, b', a, a'], _ =>
      rw [cuts_of_hex hhex, Option.map_some, ofParts?_pairs hsix]
      rfl
  · next hnot3 hnot6 hnot8 =>
    have hnone : ofDigits? (digits.map digitValue) = none := by
      rw [← Option.not_isSome_iff_eq_none, isSome_ofDigits?_iff, List.length_map]
      rintro (h | h | h)
      exacts [hnot3 h, hnot6 h, hnot8 h]
    rw [hnone]

/-- Reading by bytes never fails at a cut and finds the same colour. -/
theorem ofBytes?_eq (text : String) : ofBytes? text = some (ofText? text) := by
  unfold ofBytes?
  split
  · next digits hchars =>
    have hall : (digits.all fun ch => decide (IsHexDigit ch)) = true ↔
        ∀ ch ∈ digits, IsHexDigit ch := by
      simp only [List.all_eq_true, decide_eq_true_eq]
    by_cases hhex : ∀ ch ∈ digits, IsHexDigit ch
    · rw [if_pos (hall.mpr hhex), ofText?_of_hex hchars hhex, ofDigitBytes?_of_hex hhex]
    · rw [if_neg (mt hall.mp hhex), ofText?_eq_none]
      intro digits' hchars'
      rwa [(List.cons.inj (hchars'.symm.trans hchars)).2]
  · next hother => rw [ofText?_eq_none fun digits hchars => absurd hchars (hother digits)]

end Rgb

/-! ## Exactness -/

/-- The canonical colour of a value is spelled from its trimmed text. -/
theorem Value.hexColor?_eq_some_iff {v : Value} {h : String} : v.hexColor? = some h ↔
    ∃ s, v.text? = some s ∧ Rgb.IsHexColor (Text.trim s) ∧ h = Rgb.canonical (Text.trim s) := by
  simp only [hexColor?, Option.bind_eq_some_iff, Option.map_eq_some_iff, ← Rgb.isSome_ofText?_iff,
    Option.isSome_iff_exists]
  constructor
  · rintro ⟨s, hs, c, hc, rfl⟩
    exact ⟨s, hs, ⟨c, hc⟩, Rgb.toHex_of_ofText? hc⟩
  · rintro ⟨s, hs, ⟨c, hc⟩, rfl⟩
    exact ⟨s, hs, c, hc, Rgb.toHex_of_ofText? hc⟩

/-- A text denotes a colour exactly if it is a hex colour, and reading it by bytes fails at no cut
and gives the same.  The canonical colour of a value is its trimmed text with three digits doubled,
an opacity dropped and capitals made small.  It has six small digits, denotes the colour that the
trimmed text denotes, and is its own canonical colour. -/
theorem hex_colors_exact :
    (∀ text, (Rgb.ofText? text).isSome = true ↔ Rgb.IsHexColor text) ∧
      (∀ text, Rgb.ofBytes? text = some (Rgb.ofText? text)) ∧
      ∀ (v : Value) (h : String),
        (v.hexColor? = some h ↔ ∃ s, v.text? = some s ∧ Rgb.IsHexColor (Text.trim s) ∧
          h = Rgb.canonical (Text.trim s)) ∧
        (v.hexColor? = some h → Rgb.IsCanonical h ∧
          (∃ s, v.text? = some s ∧ Rgb.ofText? h = Rgb.ofText? (Text.trim s)) ∧
          (Value.color h).hexColor? = some h) := by
  refine ⟨fun _ => Rgb.isSome_ofText?_iff, Rgb.ofBytes?_eq,
    fun v h => ⟨Value.hexColor?_eq_some_iff, fun hv => ?_⟩⟩
  obtain ⟨s, hs, hcolor, rfl⟩ := Value.hexColor?_eq_some_iff.mp hv
  have hagain : (Value.color (Rgb.canonical (Text.trim s))).hexColor? =
      some (Rgb.canonical (Text.trim s)) := by
    refine Value.hexColor?_eq_some_iff.mpr ⟨_, rfl, ?_, ?_⟩
    · rw [Rgb.trim_canonical hcolor]
      exact Rgb.isHexColor_canonical hcolor
    · rw [Rgb.trim_canonical hcolor, Rgb.canonical_canonical hcolor]
  exact ⟨Rgb.isCanonical_canonical hcolor, ⟨s, hs, Rgb.ofText?_canonical hcolor⟩, hagain⟩

/-- A colour with an opacity between wide blanks, as the text of a shadow. -/
def halfOpaque : Value := .shadow "\u3000#3B82f680\u00a0"

/-- Beside the colour stands a text that is refused: it has six bytes behind the `#`, and a cut
behind the second of them would fail. -/
theorem hex_colors_exact_halfOpaque :
    halfOpaque.hexColor? = some "#3b82f6" ∧ Rgb.IsCanonical "#3b82f6" ∧
      Rgb.ofText? "#3b82f6" = Rgb.ofText? "#3B82f680" ∧
      (Value.color "#3b82f6").hexColor? = some "#3b82f6" ∧
      Text.between? "a\u00e9345" 0 2 = none ∧ Rgb.ofBytes? "#a\u00e9345" = some none ∧
      ¬ Rgb.IsHexColor "#a\u00e9345" := by
  have hcolor : halfOpaque.hexColor? = some "#3b82f6" := by decide
  have hunread : Rgb.ofText? "#a\u00e9345" = none := by decide
  obtain ⟨haccepts, hbytes, hvalues⟩ := hex_colors_exact
  obtain ⟨hcanonical, ⟨s, hs, hsame⟩, hagain⟩ := (hvalues _ _).2 hcolor
  have htrimmed : Text.trim s = "#3B82f680" := by
    cases hs
    decide
  rw [htrimmed] at hsame
  refine ⟨hcolor, hcanonical, hsame, hagain, by decide, ?_, ?_⟩
  · rw [hbytes, hunread]
  · rw [← haccepts, hunread]
    decide

end DesignTokens
