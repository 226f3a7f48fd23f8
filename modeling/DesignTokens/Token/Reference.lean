import DesignTokens.Text.Blank
import DesignTokens.Text.Ordered

/-!
# References inside a text

A text refers to another token in three ways: it is the token's path by itself, it is one brace
group with the path in it, or it holds such groups among other characters.  A brace group is an
opening brace, at least one character that is no brace, and a closing brace; the path is the
trimmed body.

`pieces` cuts a text into its brace groups and the single characters between them.  Extraction,
recognition, redirection and substitution are all read off the pieces, so they agree on what a
reference is.
-/

namespace DesignTokens.Reference

/-- A brace group or a single character outside the groups. -/
inductive Piece where
  | char (c : Char)
  | group (body : List Char)
  deriving DecidableEq, Repr

namespace Piece

def chars : Piece → List Char
  | char c => [c]
  | group body => '{' :: body ++ ['}']

/-- The path that a group names; blank bodies name none. -/
def path? : Piece → Option String
  | char _ => none
  | group body =>
    let path := String.ofList (Text.trimChars body)
    if path = "" then none else some path

end Piece

def isBrace (c : Char) : Bool := c == '{' || c == '}'

/-- The characters before the first brace. -/
def upToBrace (cs : List Char) : List Char := cs.takeWhile fun c => !isBrace c

/-- The body of the brace group that opened just before the text, if it is one. -/
def body? (cs : List Char) : Option (List Char) :=
  if upToBrace cs ≠ [] ∧ cs[(upToBrace cs).length]? = some '}' then some (upToBrace cs) else none

/-- The pieces of a text of which the first `skip` characters belong to a group already read. -/
def piecesFrom : Nat → List Char → List Piece
  | _, [] => []
  | skip + 1, _ :: cs => piecesFrom skip cs
  | 0, c :: cs =>
    match if c = '{' then body? cs else none with
    | some body => .group body :: piecesFrom (body.length + 1) cs
    | none => .char c :: piecesFrom 0 cs

/-- The brace groups of a text, leftmost first, and the characters between them. -/
def pieces (text : String) : List Piece := piecesFrom 0 text.toList

def joined (ps : List Piece) : String := String.ofList (ps.flatMap Piece.chars)

/-- The paths named by the brace groups of a text, in order, with repeats. -/
def embedded (text : String) : List String := (pieces text).filterMap Piece.path?

def hasEmbedded (text : String) : Bool := !(embedded text).isEmpty

/-- The trimmed body of a text that is one brace group. -/
def pure? (text : String) : Option String :=
  match pieces (Text.trim text) with
  | [.group body] => some (String.ofList (Text.trimChars body))
  | _ => none

/-- The paths that the text of the token at `owner` refers to.  A text without groups refers to
the path that it is, if that is a known path other than its own. -/
def extract (owner text : String) (known : String → Bool) : List String :=
  match Text.firsts (embedded text) with
  | [] =>
    let bare := Text.trim text
    if bare ≠ "" ∧ bare ≠ owner ∧ !Text.hasBlank bare ∧ known bare then [bare] else []
  | targets => targets

/-- Whether the text refers to a path in any of the three ways. -/
def mentions (text target : String) : Bool :=
  Text.trim text == target || (embedded text).contains target

/-- The piece with a reference to `old` turned into one to `new`. -/
def Piece.redirect (old new : String) : Piece → Piece
  | .char c => .char c
  | .group body =>
    if String.ofList (Text.trimChars body) = old then .group new.toList else .group body

/-- The text with every reference to `old` turned into one to `new`, if it has any. -/
def redirect? (text old new : String) : Option String :=
  if Text.trim text = old then some new
  else if (embedded text).contains old then
    some (joined ((pieces text).map (Piece.redirect old new)))
  else none

/-- The characters that stand for a piece once its group is looked up. -/
def Piece.substituted? (lookup : String → Option String) : Piece → Option (List Char)
  | .char c => some [c]
  | .group body => (lookup (String.ofList (Text.trimChars body))).map String.toList

/-- The text with every brace group replaced by what the lookup gives for its trimmed body, if it
answers for all of them. -/
def substitute? (text : String) (lookup : String → Option String) : Option String :=
  ((pieces text).mapM (Piece.substituted? lookup)).map fun parts => String.ofList parts.flatten

/-! ## Laws of the pieces -/

theorem body?_eq_some {cs body : List Char} (h : body? cs = some body) :
    ∃ rest, cs = body ++ '}' :: rest ∧ body ≠ [] ∧ ∀ c ∈ body, isBrace c = false := by
  unfold body? at h
  split at h
  · next hb =>
    obtain ⟨hne, hclose⟩ := hb
    cases h
    have hcut := List.takeWhile_append_dropWhile (p := fun c => !isBrace c) (l := cs)
    change upToBrace cs ++ _ = cs at hcut
    generalize hbody : upToBrace cs = body at *
    generalize cs.dropWhile (fun c => !isBrace c) = after at hcut
    cases after with
    | nil => simp [← hcut] at hclose
    | cons d rest =>
      have hd : d = '}' := by simpa [← hcut] using hclose
      refine ⟨rest, by rw [← hd, hcut], hne, fun c hc => ?_⟩
      rw [← hbody, upToBrace] at hc
      have hall := List.all_takeWhile (p := fun c => !isBrace c) (l := cs)
      simpa using List.all_eq_true.mp hall c hc
  · cases h

theorem piecesFrom_drop (skip : Nat) (cs : List Char) :
    piecesFrom skip cs = piecesFrom 0 (cs.drop skip) := by
  induction skip generalizing cs with
  | zero => rfl
  | succ n ih =>
    cases cs with
    | nil => simp [piecesFrom]
    | cons c cs => simpa [piecesFrom] using ih cs

/-- Cutting a text into pieces loses nothing. -/
theorem flatMap_chars_piecesFrom (cs : List Char) :
    (piecesFrom 0 cs).flatMap Piece.chars = cs := by
  induction h : cs.length using Nat.strongRecOn generalizing cs with
  | _ n ih =>
    cases cs with
    | nil => rfl
    | cons c cs =>
      subst h
      unfold piecesFrom
      split
      · next body hb =>
        split at hb
        · next hc =>
          obtain ⟨rest, hcs, _, _⟩ := body?_eq_some hb
          rw [piecesFrom_drop]
          have hrest : List.drop (body.length + 1) cs = rest := by simp [hcs]
          have hlen : rest.length < (c :: cs).length := by
            simp only [hcs, List.length_append, List.length_cons]
            omega
          rw [hrest, List.flatMap_cons, ih _ hlen rest rfl, hcs, hc]
          simp [Piece.chars]
        · cases hb
      · have hlen : cs.length < (c :: cs).length := by simp
        rw [List.flatMap_cons, ih _ hlen cs rfl]
        simp [Piece.chars]

theorem joined_pieces (text : String) : joined (pieces text) = text := by
  simp [joined, pieces, flatMap_chars_piecesFrom]

end DesignTokens.Reference
