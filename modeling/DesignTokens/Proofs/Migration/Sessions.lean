import DesignTokens.Proofs.Migration.Scripts

/-!
# Sessions

A session starts from an empty store and goes on with commands: single changes, actions, whole
runs, and rollbacks to the snapshots that were taken so far.  It can be held on a store and on
tokens under keys.

The paths in a store are distinct by its type.  Nothing in the type of tokens under keys says that
a key is the path of its token; it is so after every session because every command is a script.
-/

namespace DesignTokens

inductive Command where
  | insert (t : Token)
  | insertNew (t : Token)
  | remove (path : String)
  | move (source target : String)
  | clear
  | replaceAll (ts : List Token)
  | resolve
  | runAction (dry : Bool) (a : Action)
  | execute (o : RunOptions) (approach : Approach) (phases : List Phase)
  | snapshot (label : String)
  -- Goes back to a snapshot by its position among those taken so far.
  | rollback (index : Nat)

namespace Command

/-- What a command does to a store and the snapshots taken so far.  A refused change leaves the
store as it is. -/
def apply : OpenStore × List Snapshot → Command → OpenStore × List Snapshot
  | (s, taken), insert t => (s.insert t, taken)
  | (s, taken), insertNew t => ((s.insertNew t).toOption.getD s, taken)
  | (s, taken), remove path => (s.erase path, taken)
  | (s, taken), move source target => ((s.move source target).toOption.getD s, taken)
  | (s, taken), clear => (s.clear, taken)
  | (s, taken), replaceAll ts => (s.replaceAll ts, taken)
  | (s, taken), resolve => (s.resolve.1, taken)
  | (s, taken), runAction dry a => ((s.runAction dry a).1, taken)
  | (s, taken), execute o approach phases =>
    let (s', record) := s.execute o approach phases
    (s', taken ++ record.snapshot.toList)
  | (s, taken), snapshot label => (s, taken ++ [s.snapshot label])
  | (s, taken), rollback index =>
    match taken[index]? with
    | some snap => (s.rollback snap, taken)
    | none => (s, taken)

/-- The script of a command, which gives the snapshots taken by then. -/
def script (taken : List Snapshot) : Command → Script (List Snapshot)
  | insert t => do
    Script.put t
    pure taken
  | insertNew t => do
    let _ ← Script.insertNew t
    pure taken
  | remove path => do
    let _ ← Script.take path
    pure taken
  | move source target => do
    let _ ← Script.move source target
    pure taken
  | clear => do
    Script.empty
    pure taken
  | replaceAll ts => do
    Script.replaceAll ts
    pure taken
  | resolve => do
    let _ ← Script.resolve
    pure taken
  | runAction dry a => do
    let _ ← Script.runAction dry a
    pure taken
  | execute o approach phases => do
    let snap ← Script.execute o approach phases
    pure (taken ++ snap.toList)
  | snapshot label => do
    let v ← Script.view
    pure (taken ++ [⟨label, v.tokens⟩])
  | rollback index =>
    match taken[index]? with
    | some snap => do
      Script.replaceAll snap.tokens
      pure taken
    | none => pure taken

theorem run_script (s : OpenStore) (taken : List Snapshot) (c : Command) :
    (c.script taken).run s = apply (s, taken) c := by
  cases c with
  | insert t => rfl
  | insertNew t =>
    simp only [script, apply, Script.run_bind, Script.run_insertNew, Script.run_pure]
    cases s.insertNew t with
    | error e => rfl
    | ok s' => rfl
  | remove path => rfl
  | move source target =>
    simp only [script, apply, Script.run_bind, Script.run_move, Script.run_pure]
    cases s.move source target with
    | error e => rfl
    | ok s' => rfl
  | clear => rfl
  | replaceAll ts =>
    simp only [script, apply, Script.run_bind, Script.run_replaceAll, Script.run_pure]
  | resolve => simp only [script, apply, Script.run_bind, Script.run_resolve, Script.run_pure]
  | runAction dry a =>
    simp only [script, apply, Script.run_bind, Script.run_runAction, Script.run_pure]
  | execute o approach phases =>
    simp only [script, apply, Script.run_bind, Script.run_execute, Script.run_pure]
  | snapshot label => rfl
  | rollback index =>
    simp only [script, apply]
    cases taken[index]? with
    | none => rfl
    | some snap =>
      simp only [Script.run_bind, Script.run_replaceAll, Script.run_pure]
      rfl

/-- What a command does to tokens under keys and the snapshots taken so far. -/
def applyKeyed (w : Keyed × List Snapshot) (c : Command) : Keyed × List Snapshot :=
  (c.script w.2).runKeyed w.1

/-- On the entries that stand for a store a command does what it does to the store. -/
theorem applyKeyed_keyed (w : OpenStore × List Snapshot) (c : Command) :
    applyKeyed (w.1.keyed, w.2) c = ((apply w c).1.keyed, (apply w c).2) := by
  calc
    applyKeyed (w.1.keyed, w.2) c
        = (((c.script w.2).run w.1).1.keyed, ((c.script w.2).run w.1).2) :=
          Script.runKeyed_keyed (c.script w.2) w.1
    _ = ((apply w c).1.keyed, (apply w c).2) := by rw [c.run_script w.1 w.2]

end Command

/-- A session on a store. -/
def Store.session (cs : List Command) : OpenStore × List Snapshot :=
  cs.foldl Command.apply (Store.empty, [])

/-- A session on tokens under keys. -/
def Keyed.session (cs : List Command) : Keyed × List Snapshot :=
  cs.foldl Command.applyKeyed (Keyed.empty, [])

/-- The two sessions go the same way. -/
theorem Keyed.session_eq (cs : List Command) :
    Keyed.session cs = ((Store.session cs).1.keyed, (Store.session cs).2) := by
  let keyed (w : OpenStore × List Snapshot) : Keyed × List Snapshot := (w.1.keyed, w.2)
  calc
    Keyed.session cs = cs.foldl Command.applyKeyed (keyed (Store.empty, [])) := rfl
    _ = keyed (cs.foldl Command.apply (Store.empty, [])) :=
      List.foldl_hom keyed Command.applyKeyed_keyed

/-- After any session on tokens under keys the paths of the tokens are distinct, a token is found
exactly under these and has the path that it is found under, and there are as many tokens as paths.
They are the tokens, and the snapshots, of the same session on a store. -/
theorem Keyed.session_consistent (cs : List Command) :
    (Keyed.session cs).1.paths.Nodup ∧
      (∀ p, ((Keyed.session cs).1.get? p).isSome = true ↔ p ∈ (Keyed.session cs).1.paths) ∧
      (∀ p t, (Keyed.session cs).1.get? p = some t → t.path = p) ∧
      (Keyed.session cs).1.size = (Keyed.session cs).1.paths.length ∧
      (Keyed.session cs).1.tokens = (Store.session cs).1.tokens ∧
      (∀ p, (Keyed.session cs).1.get? p = (Store.session cs).1.get? p) ∧
      (Keyed.session cs).2 = (Store.session cs).2 := by
  rw [Keyed.session_eq]
  rcases Store.keyed_consistent (Store.session cs).1 with ⟨hdistinct, hfound, hpath, hsize⟩
  refine ⟨hdistinct, hfound, hpath, hsize, ?_, ?_, rfl⟩
  · exact Store.tokens_keyed _
  · intro p
    exact Store.get?_keyed _ p

end DesignTokens
