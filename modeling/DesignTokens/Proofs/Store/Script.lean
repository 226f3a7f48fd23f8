import DesignTokens.Proofs.Store.Keyed
import DesignTokens.Store.Resolution

/-!
# Scripts

A script is a program that works on a store through its basic operations only: it can look at the
tokens, put a token at its path, take one out, change one in place and empty the store.  A change
in place comes with a proof that it leaves the path of the token alone.

A script can be run on a store and on entries under keys.  What it does to the entries that stand
for a store is what it does to the store, and it gives the same result.  So what is written as a
script keeps keys and paths in agreement.
-/

namespace DesignTokens

/-- What can be seen of a store: its tokens in their order, and the one at each path. -/
structure View where
  tokens : List Token
  get? : String → Option Token

def Store.view {locked : String → Bool} (s : Store locked) : View := ⟨s.tokens, s.get?⟩

def Keyed.view (m : Keyed) : View := ⟨m.tokens, m.get?⟩

theorem Store.view_keyed {locked : String → Bool} (s : Store locked) : s.keyed.view = s.view := by
  have hget : s.keyed.get? = s.get? := funext s.get?_keyed
  simp [Keyed.view, Store.view, hget]

/-- A program over the basic operations of a store. -/
inductive Script (α : Type) where
  | done (result : α)
  | look (next : View → Script α)
  | insert (t : Token) (next : Script α)
  | remove (path : String) (next : Option Token → Script α)
  | modify (path : String) (f : Token → Token) (keeps : ∀ t, (f t).path = t.path)
      (next : Script α)
  | clear (next : Script α)

namespace Script

variable {α β : Type}

def bind : Script α → (α → Script β) → Script β
  | done a, k => k a
  | look next, k => look fun v => (next v).bind k
  | insert t next, k => insert t (next.bind k)
  | remove path next, k => remove path fun t => (next t).bind k
  | modify path f keeps next, k => modify path f keeps (next.bind k)
  | clear next, k => clear (next.bind k)

instance : Monad Script where
  pure := done
  bind := bind

/-! ## Running a script -/

/-- What a script does to a store, and its result. -/
def run : Script α → OpenStore → OpenStore × α
  | done a, s => (s, a)
  | look next, s => (next s.view).run s
  | insert t next, s => next.run (s.insert t)
  | remove path next, s => (next (s.get? path)).run (s.erase path)
  | modify path f _ next, s => next.run (s.edit path f)
  | clear next, s => next.run s.clear

/-- What a script does to tokens under keys, and its result. -/
def runKeyed : Script α → Keyed → Keyed × α
  | done a, m => (m, a)
  | look next, m => (next m.view).runKeyed m
  | insert t next, m => next.runKeyed (m.insert t)
  | remove path next, m => (next (m.get? path)).runKeyed (m.remove path)
  | modify path f _ next, m => next.runKeyed (m.modify path f)
  | clear next, _ => next.runKeyed .empty

/-- On the entries that stand for a store a script does what it does to the store. -/
theorem runKeyed_keyed (c : Script α) (s : OpenStore) :
    c.runKeyed s.keyed = ((c.run s).1.keyed, (c.run s).2) := by
  induction c generalizing s with
  | done a => rfl
  | look next ih =>
    rw [runKeyed, s.view_keyed]
    exact ih s.view s
  | insert t next ih =>
    rw [runKeyed, s.insert_keyed]
    exact ih (s.insert t)
  | remove path next ih =>
    rw [runKeyed, s.remove_keyed, s.get?_keyed]
    exact ih (s.get? path) (s.erase path)
  | modify path f keeps next ih =>
    rw [runKeyed, Store.modify_keyed keeps]
    exact ih (s.edit path f)
  | clear next ih =>
    rw [runKeyed, ← s.clear_keyed]
    exact ih s.clear

@[simp]
theorem run_pure (a : α) (s : OpenStore) : (pure a : Script α).run s = (s, a) := rfl

@[simp]
theorem run_bind (c : Script α) (k : α → Script β) (s : OpenStore) :
    (c >>= k).run s = (k (c.run s).2).run (c.run s).1 := by
  change (c.bind k).run s = _
  induction c generalizing s with
  | done a => rfl
  | look next ih => exact ih s.view s
  | insert t next ih => exact ih (s.insert t)
  | remove path next ih => exact ih (s.get? path) (s.erase path)
  | modify path f keeps next ih => exact ih (s.edit path f)
  | clear next ih => exact ih s.clear

/-! ## Basic operations -/

def view : Script View := look done

def put (t : Token) : Script Unit := insert t (done ())

def take (path : String) : Script (Option Token) := remove path done

def change (path : String) (f : Token → Token) (keeps : ∀ t, (f t).path = t.path) : Script Unit :=
  modify path f keeps (done ())

def empty : Script Unit := clear (done ())

section

variable (s : OpenStore)

@[simp]
theorem run_view : view.run s = (s, s.view) := rfl

@[simp]
theorem run_put (t : Token) : (put t).run s = (s.insert t, ()) := rfl

@[simp]
theorem run_take (path : String) : (take path).run s = (s.erase path, s.get? path) := rfl

@[simp]
theorem run_change (path : String) (f : Token → Token) (keeps : ∀ t, (f t).path = t.path) :
    (change path f keeps).run s = (s.edit path f, ()) := rfl

@[simp]
theorem run_empty : empty.run s = (s.clear, ()) := rfl

end

end Script

/-! ## Reading a view -/

namespace View

def contains (v : View) (path : String) : Bool := (v.get? path).isSome

def paths (v : View) : List String := v.tokens.map Token.path

/-- The paths of the tokens that refer to a path. -/
def referrers (v : View) (target : String) : List String :=
  (v.tokens.filter fun t => t.references target).map Token.path

def waiting (v : View) : List Waiting :=
  v.tokens.filterMap fun t =>
    match t.targets v.contains with
    | [] => none
    | targets => some ⟨t.path, t.raw, targets⟩

def literals (v : View) : List (String × Value) :=
  v.tokens.filterMap fun t =>
    if (t.targets v.contains).isEmpty then some (t.path, t.value) else none

def settled (v : View) : Settled × List Waiting := Waiting.settle v.waiting ⟨v.literals, []⟩

end View

namespace Store

variable {locked : String → Bool} (s : Store locked)

@[simp]
theorem get?_view : s.view.get? = s.get? := rfl

@[simp]
theorem contains_view : s.view.contains = s.contains := by
  funext path
  rw [Bool.eq_iff_iff, contains_iff]
  constructor
  · intro hfound
    rcases Option.isSome_iff_exists.mp hfound with ⟨t, ht⟩
    exact mem_paths.mpr ⟨t, get?_eq_some_iff.mp ht⟩
  · intro hmem
    exact Option.isSome_iff_exists.mpr (exists_get?_of_mem_paths hmem)

@[simp]
theorem settled_view : s.view.settled = s.settled := by
  simp only [View.settled, View.waiting, View.literals, contains_view]
  rfl

end Store

/-! ## The operations of a store as scripts -/

namespace Script

def insertAll : List Token → Script Unit
  | [] => pure ()
  | t :: ts => do
    put t
    insertAll ts

def replaceAll (ts : List Token) : Script Unit := do
  empty
  insertAll ts

def insertNew (t : Token) : Script (Except StoreError Unit) := do
  let v ← view
  if v.contains t.path then pure (.error (.alreadyExists t.path))
  else
    put t
    pure (.ok ())

/-- Takes the token out, writes the new path into it and puts it back. -/
def move (source target : String) : Script (Except StoreError Unit) := do
  let v ← view
  if source = target then
    if v.contains source then pure (.ok ()) else pure (.error (.notFound source))
  else if v.contains target then pure (.error (.alreadyExists target))
  else
    match ← take source with
    | none => pure (.error (.notFound source))
    | some t =>
      put { t with path := target }
      pure (.ok ())

/-- Writes settled values into the tokens of some paths. -/
def settle (k : Settled) : List String → Script Unit
  | [] => pure ()
  | path :: rest => do
    match k.value? path with
    | some v => change path (fun t => { t with resolved := some v }) fun _ => rfl
    | none => pure ()
    settle k rest

def resolve : Script Resolution := do
  let v ← view
  let (k, stuck) := v.settled
  settle k k.order
  pure ⟨k.order, stuck.map Waiting.path⟩

section

variable (s : OpenStore)

theorem run_insertAll (ts : List Token) : (insertAll ts).run s = (s.insertAll ts, ()) := by
  induction ts generalizing s with
  | nil => rfl
  | cons t ts ih => exact ih (s.insert t)

theorem run_replaceAll (ts : List Token) : (replaceAll ts).run s = (s.replaceAll ts, ()) :=
  run_insertAll s.clear ts

theorem run_insertNew (t : Token) :
    (insertNew t).run s =
      match s.insertNew t with
      | .ok s' => (s', .ok ())
      | .error e => (s, .error e) := by
  by_cases hmem : s.contains t.path = true
  · simp [insertNew, Store.insertNew, hmem]
  · simp [insertNew, Store.insertNew, hmem]

theorem run_move (source target : String) :
    (move source target).run s =
      match s.move source target with
      | .ok s' => (s', .ok ())
      | .error e => (s, .error e) := by
  by_cases hsame : source = target
  · cases hsource : s.contains source with
    | true => simp [move, Store.move, ← hsame, hsource]
    | false => simp [move, Store.move, ← hsame, hsource]
  · cases htarget : s.contains target with
    | true => simp [move, Store.move, hsame, htarget]
    | false =>
      cases hget : s.get? source with
      | none =>
        have hkept := Store.erase_of_get?_eq_none hget
        simp [move, Store.move, Store.take?, hsame, htarget, hget, hkept]
      | some t => simp [move, Store.move, Store.take?, hsame, htarget, hget]

theorem run_settle (k : Settled) (order : List String) :
    (settle k order).run s =
      (order.foldl (fun s path =>
        match k.value? path with
        | some v => s.edit path fun t => { t with resolved := some v }
        | none => s) s, ()) := by
  induction order generalizing s with
  | nil => rfl
  | cons path rest ih =>
    rw [settle, List.foldl_cons]
    cases k.value? path with
    | none => exact ih s
    | some v => exact ih (s.edit path fun t => { t with resolved := some v })

theorem run_resolve : resolve.run s = s.resolve := by
  let finish (k : Settled) (stuck : List Waiting) : Script Resolution := do
    settle k k.order
    pure ⟨k.order, stuck.map Waiting.path⟩
  calc
    resolve.run s = (finish s.view.settled.1 s.view.settled.2).run s := rfl
    _ = (finish s.settled.1 s.settled.2).run s := by rw [s.settled_view]
    _ = s.resolve := by
      rw [run_bind, run_settle]
      rfl

end

end Script

end DesignTokens
