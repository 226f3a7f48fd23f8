import DesignTokens.Proofs.Text.Ordered
import DesignTokens.Token.Reference

/-!
# Cutting a rewritten text

A text is cut into brace groups and single characters.  When the body of every group is replaced by
another body, the cut of the new text is the old cut with the bodies replaced: no group is lost and
none comes into being.  The reason is that whether an opening brace starts a group depends only on
the characters up to the next brace, and a rewriting of bodies leaves those alone.

Trimming never drops a character that is not blank, so a text with a brace keeps it when trimmed.
Blanks around a text belong to no group.

What is extracted from a text are the paths of its groups, or else at most the path that it is.
-/

namespace DesignTokens

namespace Text

/-! ## Trimming -/

theorem mem_trimStart {c : Char} {cs : List Char} (hc : c ∈ cs) (hblank : isBlank c = false) :
    c ∈ trimStart cs := by
  induction cs with
  | nil => cases hc
  | cons d ds ih =>
    by_cases hd : isBlank d = true
    · -- The head is blank and so it is another character.
      have hcd : c ≠ d := by
        intro h
        simp [h, hd] at hblank
      have htail : c ∈ ds := (List.mem_cons.mp hc).resolve_left hcd
      simpa [trimStart, hd] using ih htail
    · simpa [trimStart, hd] using hc

theorem mem_trimEnd {c : Char} {cs : List Char} (hc : c ∈ cs) (hblank : isBlank c = false) :
    c ∈ trimEnd cs := by
  induction cs with
  | nil => cases hc
  | cons d ds ih =>
    rcases List.mem_cons.mp hc with rfl | htail
    · obtain ⟨rest, hrest⟩ : ∃ rest, trimEnd (c :: ds) = c :: rest := trimEnd_cons hblank
      simp [hrest]
    · have hmem := ih htail
      cases hds : trimEnd ds with
      | nil => simp [hds] at hmem
      | cons e es =>
        rw [hds] at hmem
        have hcons : trimEnd (d :: ds) = d :: e :: es := by rw [trimEnd, hds]
        rw [hcons]
        exact List.mem_cons_of_mem _ hmem

/-- Trimming keeps every character that is not blank. -/
theorem mem_trimChars {c : Char} {cs : List Char} (hc : c ∈ cs) (hblank : isBlank c = false) :
    c ∈ trimChars cs :=
  mem_trimEnd (mem_trimStart hc hblank) hblank

/-- Trimming makes up no characters. -/
theorem mem_of_mem_trimEnd {c : Char} {cs : List Char} (h : c ∈ trimEnd cs) : c ∈ cs := by
  induction cs with
  | nil => exact h
  | cons d ds ih =>
    cases hds : trimEnd ds with
    | nil =>
      by_cases hd : isBlank d = true
      · simp [trimEnd, hds, hd] at h
      · have hsingle : trimEnd (d :: ds) = [d] := by simp [trimEnd, hds, hd]
        rw [hsingle] at h
        rw [List.mem_singleton.mp h]
        exact List.mem_cons_self
    | cons e es =>
      have hcons : trimEnd (d :: ds) = d :: trimEnd ds := by rw [trimEnd, hds]
      rw [hcons] at h
      rcases List.mem_cons.mp h with rfl | htail
      · exact List.mem_cons_self
      · exact List.mem_cons_of_mem _ (ih htail)

theorem mem_of_mem_trimChars {c : Char} {cs : List Char} (h : c ∈ trimChars cs) : c ∈ cs :=
  (List.dropWhile_sublist _).subset (mem_of_mem_trimEnd h)

theorem trimEnd_of_noBlank {cs : List Char} (h : ∀ c ∈ cs, isBlank c = false) :
    trimEnd cs = cs := by
  induction cs with
  | nil => rfl
  | cons c cs ih =>
    have htail := ih fun d hd => h d (List.mem_cons_of_mem _ hd)
    have hc := h c List.mem_cons_self
    cases cs with
    | nil => simp [trimEnd, hc]
    | cons d ds => rw [trimEnd, htail]

/-- Trimming the end drops blank characters only. -/
theorem exists_trimEnd_append (cs : List Char) :
    ∃ blanks, cs = trimEnd cs ++ blanks ∧ ∀ c ∈ blanks, isBlank c = true := by
  induction cs with
  | nil => exact ⟨[], rfl, by simp⟩
  | cons c cs ih =>
    obtain ⟨blanks, hcs, hblanks⟩ := ih
    cases hend : trimEnd cs with
    | nil =>
      rw [hend, List.nil_append] at hcs
      by_cases hc : isBlank c = true
      · refine ⟨c :: blanks, by simp [trimEnd, hend, hc, ← hcs], ?_⟩
        exact List.forall_mem_cons.mpr ⟨hc, hblanks⟩
      · exact ⟨blanks, by simp [trimEnd, hend, hc, ← hcs], hblanks⟩
    | cons d ds =>
      have hkept : trimEnd (c :: cs) = c :: trimEnd cs := by rw [trimEnd, hend]
      exact ⟨blanks, by rw [hkept, List.cons_append, ← hcs], hblanks⟩

/-- A text without blank characters is its own trimmed form. -/
theorem trimChars_of_noBlank {cs : List Char} (h : ∀ c ∈ cs, isBlank c = false) :
    trimChars cs = cs := by
  cases cs with
  | nil => rfl
  | cons c cs =>
    have hstart : trimStart (c :: cs) = c :: cs := trimStart_of_head (h c List.mem_cons_self)
    rw [trimChars, hstart, trimEnd_of_noBlank h]

end Text

namespace Reference

/-! ## Where a group ends -/

/-- The first brace of a text. -/
def firstBrace? (cs : List Char) : Option Char := (cs.dropWhile fun c => !isBrace c).head?

theorem getElem?_length_upToBrace (cs : List Char) :
    cs[(upToBrace cs).length]? = firstBrace? cs := by
  -- The text is what stands before its first brace, and the rest.
  have hcut := List.takeWhile_append_dropWhile (p := fun c => !isBrace c) (l := cs)
  change upToBrace cs ++ _ = cs at hcut
  have hget : (upToBrace cs ++ cs.dropWhile fun c => !isBrace c)[(upToBrace cs).length]? =
      firstBrace? cs := by
    rw [List.getElem?_append_right (Nat.le_refl _), Nat.sub_self, firstBrace?,
      List.head?_eq_getElem?]
  rwa [hcut] at hget

/-- Two texts that agree up to their first brace, and in that brace, continue a group alike. -/
theorem body?_congr {cs ds : List Char} (hup : upToBrace cs = upToBrace ds)
    (hbrace : firstBrace? cs = firstBrace? ds) : body? cs = body? ds := by
  unfold body?
  rw [getElem?_length_upToBrace, getElem?_length_upToBrace, hup, hbrace]

/-- What stands between the braces of a group: some characters, none of them a brace. -/
def IsBody (body : List Char) : Prop := body ≠ [] ∧ ∀ c ∈ body, isBrace c = false

theorem isBody_of_body? {cs body : List Char} (h : body? cs = some body) : IsBody body := by
  rcases body?_eq_some h with ⟨_, _, hne, hbrace⟩
  exact ⟨hne, hbrace⟩

theorem upToBrace_append_close {body : List Char} (h : ∀ c ∈ body, isBrace c = false)
    (rest : List Char) : upToBrace (body ++ '}' :: rest) = body := by
  induction body with
  | nil => simp [upToBrace, isBrace]
  | cons c cs ih =>
    have hc := h c List.mem_cons_self
    have htail : upToBrace (cs ++ '}' :: rest) = cs :=
      ih fun d hd => h d (List.mem_cons_of_mem _ hd)
    unfold upToBrace at htail ⊢
    simp [hc, htail]

/-- A body is found again before its closing brace. -/
theorem body?_append_close {body : List Char} (h : IsBody body) (rest : List Char) :
    body? (body ++ '}' :: rest) = some body := by
  have hup := upToBrace_append_close h.2 rest
  unfold body?
  rw [hup]
  simp [h.1]

/-! ## Rewriting the bodies -/

/-- A rewriting of pieces that keeps single characters and replaces bodies by bodies. -/
structure IsBodyMap (f : Piece → Piece) : Prop where
  char : ∀ c, f (.char c) = .char c
  group : ∀ body, ∃ body', f (.group body) = .group body' ∧ (IsBody body → IsBody body')

/-- A rewriting of bodies leaves alone what a scan sees up to the first brace. -/
theorem body?_flatMap_map {f : Piece → Piece} (hf : IsBodyMap f) (ps : List Piece) :
    body? ((ps.map f).flatMap Piece.chars) = body? (ps.flatMap Piece.chars) := by
  suffices h : upToBrace ((ps.map f).flatMap Piece.chars) = upToBrace (ps.flatMap Piece.chars) ∧
      firstBrace? ((ps.map f).flatMap Piece.chars) = firstBrace? (ps.flatMap Piece.chars) from
    body?_congr h.1 h.2
  induction ps with
  | nil => exact ⟨rfl, rfl⟩
  | cons p ps ih =>
    cases p with
    | char c =>
      -- Only a character that is no brace lets the scan go on to the later pieces.
      by_cases hc : isBrace c = true
      · simp [hf.char, Piece.chars, upToBrace, firstBrace?, hc]
      · simpa [hf.char, Piece.chars, upToBrace, firstBrace?, hc] using ih
    | group body =>
      rcases hf.group body with ⟨body', hbody', _⟩
      simp [hbody', Piece.chars, upToBrace, firstBrace?, isBrace]

theorem piecesFrom_group {body : List Char} (h : IsBody body) (rest : List Char) :
    piecesFrom 0 (Piece.chars (.group body) ++ rest) = .group body :: piecesFrom 0 rest := by
  have hfound := body?_append_close h rest
  have hdrop : (body ++ '}' :: rest).drop (body.length + 1) = rest := by simp
  simp [Piece.chars, piecesFrom, hfound, piecesFrom_drop (body.length + 1), hdrop]

theorem piecesFrom_char {c : Char} {cs : List Char} (h : c = '{' → body? cs = none) :
    piecesFrom 0 (c :: cs) = .char c :: piecesFrom 0 cs := by
  by_cases hc : c = '{'
  · simp [piecesFrom, hc, h hc]
  · simp [piecesFrom, hc]

/-- Induction over a text as it is cut: a text is empty, or starts with a group, or starts with a
character that starts no group. -/
@[elab_as_elim]
theorem cut_induction {P : List Char → Prop} (nil : P [])
    (group : ∀ body rest, IsBody body → P rest → P (Piece.chars (.group body) ++ rest))
    (char : ∀ c cs, (c = '{' → body? cs = none) → P cs → P (c :: cs)) (cs : List Char) : P cs := by
  induction h : cs.length using Nat.strongRecOn generalizing cs with
  | _ n ih =>
    cases cs with
    | nil => exact nil
    | cons c cs =>
      subst h
      have htail : P cs := ih cs.length (by simp) cs rfl
      by_cases hc : c = '{'
      · cases hb : body? cs with
        | none => exact char c cs (fun _ => hb) htail
        | some body =>
          rcases body?_eq_some hb with ⟨rest, hcs, _, _⟩
          have hrest : P rest := by
            refine ih rest.length ?_ rest rfl
            simp only [hcs, List.length_cons, List.length_append]
            omega
          -- The group that starts here is cut off as one piece.
          have hstart : c :: cs = Piece.chars (.group body) ++ rest := by
            simp [Piece.chars, hc, hcs]
          rw [hstart]
          exact group body rest (isBody_of_body? hb) hrest
      · exact char c cs (fun h => absurd h hc) htail

/-- The cut of a text with rewritten bodies is the cut of the text with its bodies rewritten. -/
theorem piecesFrom_flatMap_map {f : Piece → Piece} (hf : IsBodyMap f) (cs : List Char) :
    piecesFrom 0 (((piecesFrom 0 cs).map f).flatMap Piece.chars) = (piecesFrom 0 cs).map f := by
  induction cs using cut_induction with
  | nil => rfl
  | group body rest hbody ih =>
    rcases hf.group body with ⟨body', hbody', himp⟩
    rw [piecesFrom_group hbody, List.map_cons, List.flatMap_cons, hbody',
      piecesFrom_group (himp hbody), ih]
  | char c cs hchar ih =>
    -- The rewriting of the rest does not turn this character into the start of a group.
    have hstill : c = '{' → body? (((piecesFrom 0 cs).map f).flatMap Piece.chars) = none := by
      intro hc
      rw [body?_flatMap_map hf, flatMap_chars_piecesFrom]
      exact hchar hc
    rw [piecesFrom_char hchar, List.map_cons, hf.char, List.flatMap_cons]
    calc
      piecesFrom 0 (c :: ((piecesFrom 0 cs).map f).flatMap Piece.chars)
          = .char c :: piecesFrom 0 (((piecesFrom 0 cs).map f).flatMap Piece.chars) :=
            piecesFrom_char hstill
      _ = .char c :: (piecesFrom 0 cs).map f := by rw [ih]

/-- Every group of a cut has a body. -/
theorem isBody_of_mem_piecesFrom {cs body : List Char}
    (h : Piece.group body ∈ piecesFrom 0 cs) : IsBody body := by
  induction cs using cut_induction with
  | nil => simp [piecesFrom] at h
  | group body' rest hbody' ih =>
    rw [piecesFrom_group hbody'] at h
    rcases List.mem_cons.mp h with heq | hrest
    · cases heq
      exact hbody'
    · exact ih hrest
  | char c cs hchar ih =>
    rw [piecesFrom_char hchar] at h
    exact ih (by simpa using h)

/-- A text without braces has no groups. -/
theorem embedded_of_noBrace {text : String} (h : ∀ c ∈ text.toList, isBrace c = false) :
    embedded text = [] := by
  have hcut : ∀ cs : List Char, (∀ c ∈ cs, isBrace c = false) →
      piecesFrom 0 cs = cs.map Piece.char := by
    intro cs hcs
    induction cs with
    | nil => rfl
    | cons c cs ih =>
      have hc : c ≠ '{' := by
        intro hbrace
        simp [hbrace, isBrace] at hcs
      rw [piecesFrom_char fun h => absurd h hc, List.map_cons,
        ih fun d hd => hcs d (List.mem_cons_of_mem _ hd)]
  unfold embedded pieces
  rw [hcut _ h, List.filterMap_map]
  exact List.filterMap_eq_nil_iff.mpr fun _ _ => rfl

/-! ## Blanks around a text -/

theorem filterMap_path?_blanks_append {blanks : List Char}
    (h : ∀ c ∈ blanks, Text.isBlank c = true) (cs : List Char) :
    (piecesFrom 0 (blanks ++ cs)).filterMap Piece.path? =
      (piecesFrom 0 cs).filterMap Piece.path? := by
  induction blanks with
  | nil => rfl
  | cons c blanks ih =>
    have hopen : c ≠ '{' := by
      rintro rfl
      exact absurd (h '{' List.mem_cons_self) (by decide)
    rw [List.cons_append, piecesFrom_char fun hc => absurd hc hopen]
    exact ih fun d hd => h d (List.mem_cons_of_mem _ hd)

/-- Blanks behind a text do not turn an opening brace into the start of a group. -/
theorem body?_append_blanks {blanks cs : List Char} (h : ∀ c ∈ blanks, Text.isBlank c = true)
    (hnone : body? cs = none) : body? (cs ++ blanks) = none := by
  have hclose : '}' ∉ blanks := fun hmem => absurd (h '}' hmem) (by decide)
  rw [Option.eq_none_iff_forall_ne_some]
  intro body hbody
  have his := isBody_of_body? hbody
  rcases body?_eq_some hbody with ⟨rest, hsplit, _, _⟩
  rcases List.append_eq_append_iff.mp hsplit with ⟨more, _, hblanks⟩ | ⟨more, hcs, hrest⟩
  · exact hclose (hblanks ▸ List.mem_append_right _ List.mem_cons_self)
  · -- The closing brace is no blank, so it stands before the blanks.
    cases more with
    | nil =>
      rw [List.nil_append] at hrest
      exact hclose (hrest ▸ List.mem_cons_self)
    | cons c more =>
      obtain ⟨rfl, _⟩ := List.cons.inj hrest
      rw [hcs, body?_append_close his] at hnone
      cases hnone

theorem filterMap_path?_append_blanks {blanks : List Char}
    (h : ∀ c ∈ blanks, Text.isBlank c = true) (cs : List Char) :
    (piecesFrom 0 (cs ++ blanks)).filterMap Piece.path? =
      (piecesFrom 0 cs).filterMap Piece.path? := by
  induction cs using cut_induction with
  | nil => simpa using filterMap_path?_blanks_append h []
  | group body rest hbody ih =>
    rw [List.append_assoc, piecesFrom_group hbody, piecesFrom_group hbody, List.filterMap_cons,
      List.filterMap_cons, ih]
  | char c cs hchar ih =>
    have hstill : c = '{' → body? (cs ++ blanks) = none := fun hc =>
      body?_append_blanks h (hchar hc)
    rw [List.cons_append, piecesFrom_char hstill, piecesFrom_char hchar]
    exact ih

/-- A text refers by its groups to what its trimmed form refers to. -/
theorem embedded_trim (text : String) : embedded (Text.trim text) = embedded text := by
  obtain ⟨after, hend, hafter⟩ := Text.exists_trimEnd_append (Text.trimStart text.toList)
  have hstart : text.toList.takeWhile Text.isBlank ++ Text.trimStart text.toList = text.toList :=
    List.takeWhile_append_dropWhile
  have hbefore : ∀ c ∈ text.toList.takeWhile Text.isBlank, Text.isBlank c = true :=
    List.all_eq_true.mp List.all_takeWhile
  calc
    embedded (Text.trim text)
        = (piecesFrom 0 (Text.trimChars text.toList)).filterMap Piece.path? := by
          rw [embedded, pieces, Text.toList_trim]
    _ = (piecesFrom 0 (Text.trimStart text.toList)).filterMap Piece.path? := by
          rw [hend, filterMap_path?_append_blanks hafter]
          rfl
    _ = (piecesFrom 0 text.toList).filterMap Piece.path? := by
          rw [← filterMap_path?_blanks_append hbefore, hstart]
    _ = embedded text := rfl

/-- A text that is one group embeds the body of the group, unless the body is blank. -/
theorem embedded_of_pure? {text p : String} (h : pure? text = some p) :
    embedded text = if p = "" then [] else [p] := by
  unfold pure? at h
  split at h
  · next body hpieces =>
    cases h
    rw [← embedded_trim, embedded, hpieces]
    by_cases hblank : String.ofList (Text.trimChars body) = ""
    · simp [Piece.path?, hblank]
    · simp [Piece.path?, hblank]
  · cases h

/-! ## Extraction -/

section

variable {owner text : String} {known : String → Bool}

theorem extract_of_embedded (h : embedded text ≠ []) :
    extract owner text known = Text.firsts (embedded text) := by
  unfold extract
  cases hfirsts : Text.firsts (embedded text) with
  | nil =>
    refine absurd (List.eq_nil_iff_forall_not_mem.mpr fun p hp => ?_) h
    exact List.not_mem_nil (hfirsts ▸ Text.mem_firsts.mpr hp)
  | cons p ps => rfl

theorem extract_of_not_embedded (h : embedded text = []) :
    extract owner text known =
      if Text.trim text ≠ "" ∧ Text.trim text ≠ owner ∧ !Text.hasBlank (Text.trim text) ∧
        known (Text.trim text) then [Text.trim text] else [] := by
  have hfirsts : Text.firsts (embedded text) = [] := by rw [h]; rfl
  simp only [extract, hfirsts]

end

end Reference

end DesignTokens
