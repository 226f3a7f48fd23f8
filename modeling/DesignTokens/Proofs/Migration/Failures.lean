import DesignTokens.Proofs.Migration.Relabelling
import DesignTokens.Proofs.Migration.Runs

/-!
# Targets that fail and targets that stop the action

A target on which an action fails leaves the store as it was just before its turn, on stores of
every kind.  It is different with a target at which the store refuses a change and so stops the
action.  On an open store there is none.  On other stores a rename or a restructure is stopped at a
token that the store does not give up, and by then the references to it have been redirected: the
store is as before exactly if that has changed nothing.

`Job` is an action as a step over some targets, so that the store before the turn of a target is
the one that the job leaves if it is cut short there.
-/

namespace DesignTokens

/-- A step that is not refused has recorded its operation at the path, and has left the store alone
if the operation failed. -/
def Store.Careful {locked : String → Bool} (path : String) (s : Store locked)
    (r : Store.Step locked Operation) : Prop :=
  ∀ s' op, r = (s', .ok op) → op.path = path ∧ (op.succeeded = false → s' = s)

/-- Where a rename or a restructure takes the target at a place in its list. -/
def Action.destination? (a : Action) (i : Nat) (path : String) : Option String :=
  match a.kind with
  | .rename => a.newPaths[i]?.orElse fun _ => Naming.suggestedPath? path
  | .restructure => (Naming.strict? path).map Name.path
  | _ => none

/-- What an action does: a step for each of some targets in turn, recorded at the target's path. -/
structure Job (locked : String → Bool) where
  Target : Type
  path : Target → String
  step : Store locked → Target → Store.Step locked Operation
  targets : List Target

namespace Job

variable {locked : String → Bool}

def run (j : Job locked) (s : Store locked) : Store.Step locked (List Operation) :=
  Store.forTargets j.step j.targets s

/-- The job cut short after some targets. -/
def first (j : Job locked) (n : Nat) : Job locked := { j with targets := j.targets.take n }

/-- Every step of the job is careful. -/
def Careful (j : Job locked) : Prop :=
  ∀ s b, Store.Careful (j.path b) s (j.step s b)

end Job

namespace Store

variable {locked : String → Bool} {β : Type} {s s' : Store locked} {op : Operation}
  {ops : List Operation} {e : StoreError} {dry : Bool} {kind : ActionKind} {a : Action}
  {path source target : String}

/-- A merge that is refused as a whole is a failure at one path. -/
def refusedMerge (path : String) (f : Fault) : Job locked where
  Target := Unit
  path _ := path
  step s _ := s.failed .merge path f
  targets := [()]

def mergeJob (s : Store locked) (dry : Bool) : List String → Job locked
  | [] => refusedMerge "" (.tooFewToMerge 0)
  | [keep] => refusedMerge keep (.tooFewToMerge 1)
  | keep :: sources =>
    if !s.contains keep then refusedMerge keep (.survivorMissing keep)
    else ⟨String, id, mergeSource dry keep, sources⟩

def job (s : Store locked) (dry : Bool) (a : Action) : Job locked :=
  match a.kind with
  | .rename => ⟨String × Option String, Prod.fst, renameTarget dry, renameTargets a⟩
  | .merge => s.mergeJob dry a.targets
  | .split => ⟨String, id, splitTarget dry ("Manual split required: " ++ a.description), a.targets⟩
  | .restructure => ⟨String, id, restructureTarget dry, a.targets⟩
  | .delete => ⟨String, id, deleteTarget dry, a.targets⟩
  | .create => ⟨String, id, createTarget dry (a.value.getD "") a.description, a.targets⟩
  | .updateReferences => ⟨String, id, describeTarget dry, s.describeTargets a.targets⟩

theorem run_mergeJob (s : Store locked) (dry : Bool) (targets : List String) :
    (s.mergeJob dry targets).run s = s.merge dry targets := by
  cases targets with
  | nil => rfl
  | cons keep sources =>
    cases sources with
    | nil => rfl
    | cons source sources =>
      rw [mergeJob, apply_ite (Job.run · s)]
      · rfl
      · exact List.cons_ne_nil _ _

/-- An action is run as its job. -/
theorem run_job (s : Store locked) (dry : Bool) (a : Action) :
    (s.job dry a).run s = s.runAction dry a := by
  unfold job runAction
  cases a.kind with
  | merge => exact run_mergeJob s dry a.targets
  | _ => rfl

/-! ## The turn of each target -/

/-- A run that is not refused comes to each target in turn. -/
theorem exists_turn {step : Store locked → β → Step locked Operation} {bs : List β}
    (h : forTargets step bs s = (s', .ok ops)) {i : Nat} (hi : i < bs.length) :
    ∃ before op after, forTargets step (bs.take i) s = (before, .ok (ops.take i)) ∧
      step before bs[i] = (after, .ok op) ∧ ops[i]? = some op ∧
      forTargets step (bs.take (i + 1)) s = (after, .ok (ops.take (i + 1))) := by
  induction bs generalizing s ops i with
  | nil => exact absurd hi (Nat.not_lt_zero i)
  | cons b bs ih =>
    unfold forTargets at h
    split at h
    · cases h
    · next s₁ op₁ hop =>
      split at h
      · cases h
      · next s₂ rest hrest =>
        cases h
        cases i with
        | zero => exact ⟨s, op₁, s₁, rfl, hop, rfl, by simp [forTargets, hop]⟩
        | succ i =>
          obtain ⟨before, op, after, hfirst, hstep, hrecorded, hnext⟩ :=
            ih hrest (Nat.lt_of_succ_lt_succ hi)
          refine ⟨before, op, after, ?_, hstep, hrecorded, ?_⟩
          · simp [forTargets, hop, hfirst]
          · simp only [List.take_succ_cons, forTargets, hop, hnext]

theorem length_of_forTargets {step : Store locked → β → Step locked Operation} {bs : List β}
    (h : forTargets step bs s = (s', .ok ops)) : ops.length = bs.length := by
  induction bs generalizing s ops with
  | nil =>
    cases h
    rfl
  | cons b bs ih =>
    unfold forTargets at h
    split at h
    · cases h
    · split at h
      · cases h
      · next hrest =>
        cases h
        rw [List.length_cons, List.length_cons, ih hrest]

/-- A run that is refused comes to some target, whose step is the one that the store refuses. -/
theorem exists_refused {step : Store locked → β → Step locked Operation} {bs : List β}
    (h : forTargets step bs s = (s', .error e)) :
    ∃ i, ∃ hi : i < bs.length, ∃ before ops,
      forTargets step (bs.take i) s = (before, .ok ops) ∧
      step before bs[i] = (s', .error e) ∧
      forTargets step (bs.take (i + 1)) s = (s', .error e) := by
  induction bs generalizing s with
  | nil => cases h
  | cons b bs ih =>
    unfold forTargets at h
    split at h
    · next hop =>
      cases h
      exact ⟨0, Nat.zero_lt_succ _, s, [], rfl, hop, by simp [forTargets, hop]⟩
    · next s₁ op hop =>
      split at h
      · next hrest =>
        cases h
        obtain ⟨i, hi, before, ops, hfirst, hstep, hnext⟩ := ih hrest
        refine ⟨i + 1, Nat.succ_lt_succ hi, before, op :: ops, ?_, hstep, ?_⟩
        · simp [forTargets, hop, hfirst]
        · simp only [List.take_succ_cons, forTargets, hop, hnext]
      · cases h

/-! ## Targets that fail -/

theorem careful_ok_same (hpath : op.path = path) : Careful path s (s, .ok op) := by
  intro s' op' h
  cases h
  exact ⟨hpath, fun _ => rfl⟩

theorem careful_ok_of_succeeded (hpath : op.path = path) (hok : op.succeeded = true) :
    Careful path s (s', .ok op) := by
  intro s'' op' h
  cases h
  exact ⟨hpath, fun hfailed => by simp [hok] at hfailed⟩

theorem careful_error : Careful path s (s', .error e) := by
  intro s'' op h
  cases h

theorem careful_relocate (s : Store locked) (dry : Bool) (kind : ActionKind)
    (source target : String) : Careful source s (s.relocate dry kind source target) := by
  unfold relocate
  split
  · exact careful_ok_same rfl
  · split
    · exact careful_ok_same rfl
    · dsimp only
      split
      · exact careful_ok_same rfl
      · split
        · exact careful_ok_of_succeeded rfl rfl
        · exact careful_error

theorem careful_renameTarget (s : Store locked) (b : String × Option String) :
    Careful b.1 s (s.renameTarget dry b) := by
  unfold renameTarget
  dsimp only
  split
  · exact careful_ok_same rfl
  · split
    · exact careful_relocate s dry .rename b.1 _
    · exact careful_ok_same rfl

theorem careful_restructureTarget (s : Store locked) (path : String) :
    Careful path s (s.restructureTarget dry path) := by
  unfold restructureTarget
  split
  · exact careful_ok_same rfl
  · split
    · exact careful_relocate s dry .restructure path _
    · exact careful_ok_same rfl

theorem careful_mergeSource (keep : String) (s : Store locked) (source : String) :
    Careful source s (s.mergeSource dry keep source) := by
  unfold mergeSource
  split
  · exact careful_ok_same rfl
  · dsimp only
    split
    · exact careful_ok_same rfl
    · exact careful_ok_of_succeeded rfl rfl

theorem careful_splitTarget (note : String) (s : Store locked) (path : String) :
    Careful path s (s.splitTarget dry note path) := by
  unfold splitTarget
  split
  · exact careful_ok_same rfl
  · dsimp only
    split
    · exact careful_ok_same rfl
    · exact careful_ok_of_succeeded rfl rfl

theorem careful_deleteTarget (s : Store locked) (path : String) :
    Careful path s (s.deleteTarget dry path) := by
  unfold deleteTarget
  split
  · exact careful_ok_same rfl
  · dsimp only
    split
    · exact careful_ok_same rfl
    · split
      · exact careful_ok_same rfl
      · exact careful_ok_of_succeeded rfl rfl

theorem careful_createTarget (value description : String) (s : Store locked) (path : String) :
    Careful path s (s.createTarget dry value description path) := by
  unfold createTarget
  split
  · exact careful_ok_same rfl
  · split
    · exact careful_ok_same rfl
    · split
      · exact careful_ok_of_succeeded rfl rfl
      · exact careful_error

theorem careful_describeTarget (s : Store locked) (path : String) :
    Careful path s (s.describeTarget dry path) := by
  unfold describeTarget
  split
  · exact careful_ok_same rfl
  · dsimp only
    split
    · exact careful_ok_same rfl
    · split
      · exact careful_ok_same rfl
      · split
        · exact careful_ok_same rfl
        · exact careful_ok_of_succeeded rfl rfl

theorem careful_mergeJob (s₀ : Store locked) (dry : Bool) (targets : List String) :
    (s₀.mergeJob dry targets).Careful := by
  unfold mergeJob
  split
  · exact fun _ _ => careful_ok_same rfl
  · exact fun _ _ => careful_ok_same rfl
  · split
    · exact fun _ _ => careful_ok_same rfl
    · exact careful_mergeSource _

/-- Whatever an action does, its steps record their operations at their targets, and a step that
fails leaves the store alone. -/
theorem careful_job (s₀ : Store locked) (dry : Bool) (a : Action) : (s₀.job dry a).Careful := by
  unfold job
  cases a.kind with
  | rename => exact careful_renameTarget
  | merge => exact careful_mergeJob s₀ dry a.targets
  | split => exact careful_splitTarget _
  | restructure => exact careful_restructureTarget
  | delete => exact careful_deleteTarget
  | create => exact careful_createTarget _ _
  | updateReferences => exact careful_describeTarget

/-- An open store refuses no action.  There is one operation for each target, and a target whose
operation fails leaves the store as it was just before its turn, whatever comes before and after
it. -/
theorem failed_targets_change_nothing (s : OpenStore) (dry : Bool) (a : Action) :
    ∃ s' ops, s.runAction dry a = (s', .ok ops) ∧ (s.job dry a).run s = (s', .ok ops) ∧
      ops.map Operation.path = (s.job dry a).targets.map (s.job dry a).path ∧
      ∀ i (hi : i < ops.length), ∃ before after,
        ((s.job dry a).first i).run s = (before, .ok (ops.take i)) ∧
        ((s.job dry a).first (i + 1)).run s = (after, .ok (ops.take (i + 1))) ∧
        (ops[i].succeeded = false → after = before) := by
  obtain ⟨s', ops, hrun⟩ := exists_runAction s dry a
  have hjob := (run_job s dry a).trans hrun
  have hlength := length_of_forTargets hjob
  have hcareful := careful_job s dry a
  refine ⟨s', ops, hrun, hjob, ?_, fun i hi => ?_⟩
  · refine List.ext_getElem (by simpa using hlength) fun i hi _ => ?_
    rw [List.length_map] at hi
    obtain ⟨before, op, after, _, hstep, hop, _⟩ := exists_turn hjob (hlength ▸ hi)
    rw [List.getElem?_eq_getElem hi, Option.some.injEq] at hop
    rw [List.getElem_map, List.getElem_map, hop]
    exact (hcareful _ _ _ _ hstep).1
  · obtain ⟨before, op, after, hfirst, hstep, hop, hnext⟩ := exists_turn hjob (hlength ▸ hi)
    rw [List.getElem?_eq_getElem hi, Option.some.injEq] at hop
    refine ⟨before, after, hfirst, hnext, fun hfailed => ?_⟩
    rw [hop] at hfailed
    exact (hcareful _ _ _ _ hstep).2 hfailed

/-- Two colours and a reference to one of them. -/
def palette : OpenStore :=
  ⟨[{ path := "a", value := .color "#fff" },
    { path := "b", value := .text "\x7ba\x7d" },
    { path := "c", value := .color "#000" }], by decide⟩

/-- A rename that names one target twice and one new path twice. -/
def collidingRename : Action where
  id := "t.1"
  kind := .rename
  description := ""
  targets := ["a", "a", "b", "c"]
  newPaths := ["d", "e", "d", "c"]

/-- The second target is gone when its turn comes, and the path that the third asks for is taken.
Both fail, and the fourth finds the store that the first has left. -/
theorem failed_targets_change_nothing_palette :
    ∃ s' ops moved, palette.runAction false collidingRename = (s', .ok ops) ∧
      ops.map Operation.fault =
        [none, some (.notFound "a"), some (.pathTaken "d"), none] ∧
      ((palette.job false collidingRename).first 1).run palette = (moved, .ok (ops.take 1)) ∧
      ((palette.job false collidingRename).first 3).run palette = (moved, .ok (ops.take 3)) := by
  obtain ⟨s', ops, hrun, _, _, hturns⟩ :=
    failed_targets_change_nothing palette false collidingRename
  have hfaults : ops.map Operation.fault =
      [none, some (.notFound "a"), some (.pathTaken "d"), none] := by
    have hops : (palette.runAction false collidingRename).2.map (List.map Operation.fault) =
        .ok [none, some (.notFound "a"), some (.pathTaken "d"), none] := by rfl
    rw [hrun] at hops
    exact Except.ok.inj hops
  have hlength : ops.length = 4 := by simpa using congrArg List.length hfaults
  have hfailed (i : Nat) (hi : i < ops.length) (hmiddle : i = 1 ∨ i = 2) :
      ops[i].succeeded = false := by
    have hfault : (ops.map Operation.fault)[i]? = some ops[i].fault := by simp [hi]
    rw [hfaults] at hfault
    rcases hmiddle with rfl | rfl <;> simp [Operation.succeeded, ← Option.some.inj hfault]
  obtain ⟨moved, second, hmoved, hsecond, hsame⟩ := hturns 1 (by omega)
  obtain ⟨_, third, hsecond', hthird, hsame'⟩ := hturns 2 (by omega)
  cases hsecond.symm.trans hsecond'
  rw [hsame' (hfailed 2 _ (.inr rfl)), hsame (hfailed 1 _ (.inl rfl))] at hthird
  exact ⟨s', ops, moved, hrun, hfaults, hmoved, hthird⟩

/-! ## A target at which the store refuses the move -/

/-- A store before and after the turn of a target that it does not give up.  All that the turn
does is to redirect the references to the target. -/
structure RefusedMove (s s' : Store locked) (source target : String) (e : StoreError) : Prop where
  present : source ∈ s.paths
  free : target ∉ s.paths
  kept : locked source = true
  error : e = .notFound source
  tokens : s'.tokens = s.tokens.map (Token.follow source target)

namespace RefusedMove

theorem ne (h : RefusedMove s s' source target e) : source ≠ target :=
  fun heq => h.free (heq ▸ h.present)

/-- Nothing is different afterwards exactly if redirecting the references changes none of the
tokens that hold them. -/
theorem intact_iff (h : RefusedMove s s' source target e) :
    s' = s ↔ ∀ t ∈ s.tokens, t.references source = true → t.redirect source target = t := by
  have hsame : s.tokens.map (Token.follow source target) = s.tokens ↔
      ∀ t ∈ s.tokens, t.follow source target = t := by
    conv_lhs => rhs; rw [← List.map_id s.tokens]
    exact List.map_inj_left
  rw [Store.ext_iff, h.tokens, hsame]
  refine forall₂_congr fun t _ => ?_
  unfold Token.follow
  split
  · next href => simp [href]
  · next href => simp [href]

/-- If the new path is clean, that means that nothing refers to the target. -/
theorem intact_iff_of_isClean (h : RefusedMove s s' source target e)
    (htarget : Reference.IsClean target) :
    s' = s ↔ ∀ t ∈ s.tokens, t.references source = false := by
  rw [h.intact_iff]
  refine forall₂_congr fun t _ => ?_
  constructor
  · intro hsame
    by_contra href
    rw [Bool.not_eq_false] at href
    have hvalue := congrArg Token.value (hsame href)
    rw [Token.redirect_value_eq_iff htarget h.ne] at hvalue
    simp [(Token.references_iff.mp href).2] at hvalue
  · intro hnone href
    simp [hnone] at href

end RefusedMove

/-- A store refuses to move a token to a free path only if it does not give the token up. -/
theorem move_eq_error (hsource : source ∈ s.paths) (hfree : target ∉ s.paths)
    (h : s.move source target = .error e) : locked source = true ∧ e = .notFound source := by
  have hne : source ≠ target := fun heq => hfree (heq ▸ hsource)
  obtain ⟨t, ht⟩ := exists_get?_of_mem_paths hsource
  simp only [move, hne, if_false, contains_eq_false_iff.mpr hfree, Bool.false_eq_true, take?,
    ht] at h
  split at h
  · next htake =>
    split at htake
    · next hlocked =>
      cases h
      exact ⟨hlocked, rfl⟩
    · cases htake
  · cases h

theorem refusedMove_of_relocate (hsource : source ∈ s.paths)
    (h : s.relocate dry kind source target = (s', .error e)) :
    RefusedMove s s' source target e := by
  unfold relocate at h
  split at h
  · cases h
  · split at h
    · cases h
    · next htaken =>
      dsimp only at h
      split at h
      · cases h
      · split at h
        · cases h
        · next hmove =>
          cases h
          have hfree : target ∉ s.paths := fun hmem => htaken (contains_iff.mpr hmem)
          -- Redirecting leaves the paths alone, so the token can still go where it is bound for.
          have hpaths := s.paths_redirectAll (s.referrers source) source target
          obtain ⟨hkept, herror⟩ := move_eq_error (by rwa [hpaths]) (by rwa [hpaths]) hmove
          exact ⟨hsource, hfree, hkept, herror, tokens_redirectAll_referrers s source target⟩

theorem refusedMove_of_renameTarget {b : String × Option String}
    (h : s.renameTarget dry b = (s', .error e)) :
    ∃ target, (b.2.orElse fun _ => Naming.suggestedPath? b.1) = some target ∧
      RefusedMove s s' b.1 target e := by
  unfold renameTarget at h
  dsimp only at h
  split at h
  · cases h
  · next hsource =>
    split at h
    · next target htarget =>
      have hpresent : b.1 ∈ s.paths := contains_iff.mp (by simpa using hsource)
      exact ⟨target, htarget, refusedMove_of_relocate hpresent h⟩
    · cases h

theorem refusedMove_of_restructureTarget (h : s.restructureTarget dry path = (s', .error e)) :
    ∃ target, (Naming.strict? path).map Name.path = some target ∧
      RefusedMove s s' path target e := by
  unfold restructureTarget at h
  split at h
  · cases h
  · next hsource =>
    split at h
    · next n hn =>
      have hpresent : path ∈ s.paths := contains_iff.mp (by simpa using hsource)
      exact ⟨n.path, by rw [hn, Option.map_some], refusedMove_of_relocate hpresent h⟩
    · cases h

/-- A rename or a restructure that is refused has come to a target whose move is. -/
theorem exists_refusedMove (hkind : a.kind = .rename ∨ a.kind = .restructure)
    (h : (s.job dry a).run s = (s', .error e)) :
    ∃ i source target before ops, a.targets[i]? = some source ∧
      a.destination? i source = some target ∧
      ((s.job dry a).first i).run s = (before, .ok ops) ∧
      ((s.job dry a).first (i + 1)).run s = (s', .error e) ∧
      RefusedMove before s' source target e := by
  rcases hkind with hkind | hkind
  · have hjob : s.job dry a = ⟨String × Option String, Prod.fst, renameTarget dry,
        renameTargets a⟩ := by
      rw [job, hkind]
    rw [hjob] at h ⊢
    simp only [Job.run, Job.first, Action.destination?, hkind] at h ⊢
    obtain ⟨i, hi, before, ops, hfirst, hstep, hnext⟩ := exists_refused h
    obtain ⟨target, htarget, hrefused⟩ := refusedMove_of_renameTarget hstep
    have hi' : i < a.targets.length := by simpa [renameTargets] using hi
    have hb : (renameTargets a)[i] = (a.targets[i], a.newPaths[i]?) := by simp [renameTargets]
    rw [hb] at htarget hrefused
    exact ⟨i, _, target, before, ops, List.getElem?_eq_getElem hi', htarget, hfirst, hnext,
      hrefused⟩
  · have hjob : s.job dry a = ⟨String, id, restructureTarget dry, a.targets⟩ := by
      rw [job, hkind]
    rw [hjob] at h ⊢
    simp only [Job.run, Job.first, Action.destination?, hkind] at h ⊢
    obtain ⟨i, hi, before, ops, hfirst, hstep, hnext⟩ := exists_refused h
    obtain ⟨target, htarget, hrefused⟩ := refusedMove_of_restructureTarget hstep
    exact ⟨i, _, target, before, ops, List.getElem?_eq_getElem hi, htarget, hfirst, hnext,
      hrefused⟩

/-- A rename or a restructure is refused at a target that is there, is bound for a free path and is
not given up; the references to it have been redirected by then.  Its turn has left the store as it
was exactly if that has changed no token.  If the new path is clean, that means that nothing refers
to the target. -/
theorem aborted_move_intact_iff (hkind : a.kind = .rename ∨ a.kind = .restructure)
    (h : s.runAction dry a = (s', .error e)) :
    ∃ i source target before ops, a.targets[i]? = some source ∧
      a.destination? i source = some target ∧
      ((s.job dry a).first i).run s = (before, .ok ops) ∧
      ((s.job dry a).first (i + 1)).run s = (s', .error e) ∧
      RefusedMove before s' source target e ∧
      (s' = before ↔
        ∀ t ∈ before.tokens, t.references source = true → t.redirect source target = t) ∧
      (Reference.IsClean target →
        (s' = before ↔ ∀ t ∈ before.tokens, t.references source = false)) := by
  rw [← run_job] at h
  obtain ⟨i, source, target, before, ops, hsource, htarget, hfirst, hnext, hrefused⟩ :=
    exists_refusedMove hkind h
  exact ⟨i, source, target, before, ops, hsource, htarget, hfirst, hnext, hrefused,
    hrefused.intact_iff, hrefused.intact_iff_of_isClean⟩

/-- A colour that is not given up and a resolved reference to it. -/
def sealedBase : SealedStore :=
  ⟨[{ path := "bg.base", value := .color "#fff" },
    { path := "x", value := .text "\x7bbg.base\x7d", resolved := some (.color "#fff") }], by decide⟩

def canonicalBase : Action where
  id := "t.1"
  kind := .rename
  description := ""
  targets := ["bg.base"]

/-- The rename is refused, and the reference names a path that no token has. -/
theorem aborted_move_intact_iff_sealedBase :
    ∃ s', sealedBase.runAction false canonicalBase = (s', .error (.notFound "bg.base")) ∧
      s' ≠ sealedBase ∧ "background.base" ∉ s'.paths ∧
      ∃ t ∈ s'.tokens, t.references "background.base" = true ∧ t.resolved = none := by
  have hrun : sealedBase.runAction false canonicalBase =
      ((sealedBase.runAction false canonicalBase).1, .error (.notFound "bg.base")) :=
    Prod.ext rfl (by rfl)
  obtain ⟨i, source, target, before, ops, hsource, htarget, hfirst, _, hrefused, _, hintact⟩ :=
    aborted_move_intact_iff (.inl rfl) hrun
  obtain ⟨rfl, rfl⟩ : i = 0 ∧ source = "bg.base" := by
    simpa [canonicalBase, List.getElem?_singleton, eq_comm] using hsource
  have hbackground : target = "background.base" := by
    have hsuggested : canonicalBase.destination? 0 "bg.base" = some "background.base" := by rfl
    exact Option.some.inj (htarget.symm.trans hsuggested)
  have hbefore : before = sealedBase := (congrArg Prod.fst hfirst).symm
  subst hbackground hbefore
  have htokens := hrefused.tokens
  have hredirected : sealedBase.tokens.map (Token.follow "bg.base" "background.base") =
      [{ path := "bg.base", value := .color "#fff" },
        { path := "x", value := .text "\x7bbackground.base\x7d" }] := by rfl
  rw [hredirected] at htokens
  refine ⟨_, hrun, fun hsame => ?_, ?_, ?_⟩
  · have hunreferenced := (hintact (by decide)).mp hsame
    revert hunreferenced
    decide
  · rw [paths, htokens]
    decide
  · rw [htokens]
    exact ⟨_, .tail _ (.head _), by decide, rfl⟩

end Store

end DesignTokens
