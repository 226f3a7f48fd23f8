import DesignTokens.Token.Basic

/-!
# Token stores

A store is a list of tokens with pairwise distinct paths, in the order in which the paths first
came in.  Putting a token at a path that is taken replaces the token and keeps its place.

A store may hold paths that it refuses to give up: removing a locked path changes nothing.  The
lock is part of the type, because no operation changes it.  `OpenStore` locks nothing, and
`SealedStore` everything.
-/

namespace DesignTokens

/-- Tokens with distinct paths, in order of insertion; locked paths cannot be removed. -/
@[ext]
structure Store (locked : String → Bool) where
  tokens : List Token
  distinct : (tokens.map Token.path).Nodup

/-- A store that gives up every token. -/
abbrev OpenStore := Store fun _ => false

/-- A store that gives up none. -/
abbrev SealedStore := Store fun _ => true

/-- Why a store refuses a change. -/
inductive StoreError where
  | notFound (path : String)
  | alreadyExists (path : String)
  deriving DecidableEq, Repr

def StoreError.message : StoreError → String
  | notFound path => "token not found: " ++ path
  | alreadyExists path => "token already exists: " ++ path

namespace Store

variable {locked : String → Bool}

def empty : Store locked := ⟨[], List.nodup_nil⟩

def paths (s : Store locked) : List String := s.tokens.map Token.path

def size (s : Store locked) : Nat := s.tokens.length

/-- The token at a path. -/
def get? (s : Store locked) (path : String) : Option Token :=
  s.tokens.find? fun t => t.path == path

def contains (s : Store locked) (path : String) : Bool := s.tokens.any fun t => t.path == path

theorem contains_iff {s : Store locked} {path : String} :
    s.contains path = true ↔ path ∈ s.paths := by
  simp [contains, paths]

/-! ## Editing in place -/

/-- The token at a path changed by a function that leaves its path alone. -/
def editToken (path : String) (f : Token → Token) (t : Token) : Token :=
  if t.path = path then { f t with path := t.path } else t

@[simp]
theorem editToken_path (path : String) (f : Token → Token) (t : Token) :
    (editToken path f t).path = t.path := by
  unfold editToken
  split <;> rfl

/-- The store with the token at a path changed; all paths and their order stay. -/
def edit (s : Store locked) (path : String) (f : Token → Token) : Store locked where
  tokens := s.tokens.map (editToken path f)
  distinct := by
    have h : (s.tokens.map (editToken path f)).map Token.path = s.tokens.map Token.path := by
      simp
    exact h ▸ s.distinct

@[simp]
theorem paths_edit (s : Store locked) (path : String) (f : Token → Token) :
    (s.edit path f).paths = s.paths := by
  simp [paths, edit]

/-! ## Insertion -/

/-- The store with a token at its path, in place of the one that was there. -/
def insert (s : Store locked) (t : Token) : Store locked :=
  if h : s.contains t.path = true then s.edit t.path fun _ => t
  else
    { tokens := s.tokens ++ [t]
      distinct := by
        rw [List.map_append, List.nodup_append]
        refine ⟨s.distinct, by simp, ?_⟩
        intro p hp q hq hpq
        simp only [List.map_cons, List.map_nil, List.mem_singleton] at hq
        exact h (contains_iff.mpr (hq ▸ hpq ▸ hp)) }

/-- The store that comes of inserting some tokens one after the other. -/
def insertAll (s : Store locked) (ts : List Token) : Store locked := ts.foldl insert s

def ofList (ts : List Token) : Store locked := insertAll empty ts

/-- The store with a token at a free path. -/
def insertNew (s : Store locked) (t : Token) : Except StoreError (Store locked) :=
  if s.contains t.path then .error (.alreadyExists t.path) else .ok (s.insert t)

/-! ## Removal -/

/-- The store without the tokens that a test throws out. -/
def filter (s : Store locked) (keep : Token → Bool) : Store locked where
  tokens := s.tokens.filter keep
  distinct := (List.filter_sublist.map Token.path).nodup s.distinct

/-- The store without the token at a path, unless the path is locked. -/
def erase (s : Store locked) (path : String) : Store locked :=
  s.filter fun t => t.path != path || locked path

/-- The token at a path and the store without it, if the store gives it up. -/
def take? (s : Store locked) (path : String) : Option (Token × Store locked) :=
  if locked path then none else (s.get? path).map fun t => (t, s.erase path)

/-- The store without all it gives up. -/
def clear (s : Store locked) : Store locked := s.filter fun t => locked t.path

/-- The store with its whole content replaced. -/
def replaceAll (s : Store locked) (ts : List Token) : Store locked := s.clear.insertAll ts

/-- The store with the token at `source` moved to `target`, where it comes last. -/
def move (s : Store locked) (source target : String) : Except StoreError (Store locked) :=
  if source = target then
    if s.contains source then .ok s else .error (.notFound source)
  else if s.contains target then .error (.alreadyExists target)
  else
    match s.take? source with
    | none => .error (.notFound source)
    | some (t, rest) => .ok (rest.insert { t with path := target })

end Store

end DesignTokens
