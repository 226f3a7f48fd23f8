import DesignTokens.Proofs.Migration.Paths

/-!
# Where the paths of a run come from and go to

A successful operation puts a token at one path, takes one from a path, does both, or leaves all
paths alone, and a failed one leaves them alone.  What each operation records is enough to account
for the paths of the store after a run: they and the paths that were left are, as often as each
occurs, the paths before the run and those that were moved or created to.
-/

namespace DesignTokens

namespace Operation

/-- The path at which a successful operation puts a token. -/
def arrival? (op : Operation) : Option String :=
  if op.succeeded then
    match op.kind with
    | .create => some op.touched
    | .rename | .restructure => op.newPath
    | .merge | .split | .delete | .updateReferences => none
  else none

/-- The path from which a successful operation takes a token. -/
def departure? (op : Operation) : Option String :=
  if op.succeeded then
    match op.kind with
    | .rename | .restructure => op.newPath.map fun _ => op.path
    | .merge | .delete => some op.path
    | .create | .split | .updateReferences => none
  else none

/-- Only a successful operation on a path takes a token from it. -/
theorem departure?_eq_some {op : Operation} {p : String} (h : op.departure? = some p) :
    op.succeeded = true ∧ op.path = p ∧
      (op.kind = .rename ∨ op.kind = .restructure ∨ op.kind = .merge ∨ op.kind = .delete) := by
  unfold departure? at h
  split at h
  · next hsucceeded =>
    cases hkind : op.kind <;> simp [hkind] at h <;> simp [hsucceeded, h]
  · cases h

end Operation

namespace Store

open Operation

variable {β : Type} {s s' s'' : OpenStore} {op : Operation} {ops rest : List Operation}
  {p q : String}

/-! ## The balance of a run -/

/-- The paths after a run and the ones it left are the paths before it and the ones it reached. -/
def Accounted (s s' : OpenStore) (ops : List Operation) : Prop :=
  (s'.paths ++ ops.filterMap departure?).Perm (s.paths ++ ops.filterMap arrival?)

namespace Accounted

theorem refl (s : OpenStore) : Accounted s s [] := List.Perm.refl _

open scoped List in
theorem trans (h : Accounted s s' ops) (h' : Accounted s' s'' rest) :
    Accounted s s'' (ops ++ rest) := by
  unfold Accounted at *
  rw [List.filterMap_append, List.filterMap_append]
  calc
    s''.paths ++ (ops.filterMap departure? ++ rest.filterMap departure?)
        ~ (s''.paths ++ rest.filterMap departure?) ++ ops.filterMap departure? := by
          rw [List.append_assoc]
          exact List.perm_append_comm.append_left _
    _ ~ (s'.paths ++ rest.filterMap arrival?) ++ ops.filterMap departure? := h'.append_right _
    _ ~ (s'.paths ++ ops.filterMap departure?) ++ rest.filterMap arrival? := by
          rw [List.append_assoc, List.append_assoc]
          exact List.perm_append_comm.append_left _
    _ ~ (s.paths ++ ops.filterMap arrival?) ++ rest.filterMap arrival? := h.append_right _
    _ = s.paths ++ (ops.filterMap arrival? ++ rest.filterMap arrival?) := List.append_assoc _ _ _

theorem idle (hpaths : s'.paths = s.paths) (harrival : op.arrival? = none)
    (hdeparture : op.departure? = none) : Accounted s s' [op] := by
  simp [Accounted, hpaths, harrival, hdeparture]

theorem failed (s : OpenStore) (kind : ActionKind) (path : String) (fault : Fault) :
    Accounted s s [{ kind, path, fault := some fault }] :=
  idle rfl rfl rfl

theorem created (hpaths : s'.paths = s.paths ++ [p]) (harrival : op.arrival? = some p)
    (hdeparture : op.departure? = none) : Accounted s s' [op] := by
  simp [Accounted, hpaths, harrival, hdeparture]

/-- A path of a store is the only one that is lost when it is thrown out. -/
theorem perm_filter_ne (hp : p ∈ s.paths) :
    ((s.paths.filter fun r => r != p) ++ [p]).Perm s.paths := by
  rw [← s.nodup_paths.erase_eq_filter]
  exact (List.perm_append_singleton _ _).trans (List.perm_cons_erase hp).symm

theorem removed (hp : p ∈ s.paths) (hpaths : s'.paths = s.paths.filter fun r => r != p)
    (harrival : op.arrival? = none) (hdeparture : op.departure? = some p) :
    Accounted s s' [op] := by
  simpa [Accounted, hpaths, harrival, hdeparture] using perm_filter_ne hp

theorem moved (hp : p ∈ s.paths) (hpaths : s'.paths = (s.paths.filter fun r => r != p) ++ [q])
    (harrival : op.arrival? = some q) (hdeparture : op.departure? = some p) :
    Accounted s s' [op] := by
  have hswap : ((s.paths.filter fun r => r != p) ++ [q] ++ [p]).Perm
      ((s.paths.filter fun r => r != p) ++ [p] ++ [q]) := by
    rw [List.append_assoc, List.append_assoc]
    exact List.perm_append_comm.append_left _
  simpa [Accounted, hpaths, harrival, hdeparture] using
    hswap.trans ((perm_filter_ne hp).append_right [q])

/-- What lies in some part of the paths is accounted for by itself. -/
theorem countP (h : Accounted s s' ops) (inside : String → Bool) :
    s'.paths.countP inside + ops.countP (fun op => op.departure?.any inside) =
      s.paths.countP inside + ops.countP (fun op => op.arrival?.any inside) := by
  have hcount : ∀ place : Operation → Option String,
      (ops.filterMap place).countP inside = ops.countP fun op => (place op).any inside := by
    intro place
    rw [List.countP_filterMap]
    refine List.countP_congr fun op _ => ?_
    cases place op <;> simp
  simpa [List.countP_append, hcount] using List.Perm.countP_eq inside h

/-- A path that no operation takes a token from stays. -/
theorem mem_paths (h : Accounted s s' ops) (hp : p ∈ s.paths)
    (hstays : ∀ op ∈ ops, op.departure? ≠ some p) : p ∈ s'.paths := by
  have hmem : p ∈ s'.paths ++ ops.filterMap departure? :=
    List.Perm.mem_iff h |>.mpr (List.mem_append_left _ hp)
  refine (List.mem_append.mp hmem).resolve_right fun hdeparted => ?_
  rcases List.mem_filterMap.mp hdeparted with ⟨op, hop, hdeparture⟩
  exact hstays op hop hdeparture

end Accounted

/-! ## Single steps -/

/-- What a step records: its kind and its target, and what it does to the paths. -/
structure Recorded (kind : ActionKind) (path : String) (s s' : OpenStore) (op : Operation) :
    Prop where
  kind_eq : op.kind = kind
  path_eq : op.path = path
  accounted : Accounted s s' [op]

theorem recorded_failed (s : OpenStore) (kind : ActionKind) (path : String) (fault : Fault) :
    Recorded kind path s s { kind, path, fault := some fault } :=
  ⟨rfl, rfl, .failed s kind path fault⟩

theorem recorded_createTarget {value description : String}
    (h : s.createTarget false value description p = (s', .ok op)) :
    Recorded .create p s s' op := by
  by_cases hp : p ∈ s.paths
  · rw [createTarget_of_mem hp] at h
    cases h
    exact recorded_failed _ _ _ _
  · rcases createTarget_of_free value description hp with ⟨s₁, t, hrun, rfl, htokens⟩
    rw [h] at hrun
    cases hrun
    exact ⟨rfl, rfl, .created (p := t.path) (by simp [paths, htokens]) rfl rfl⟩

theorem recorded_relocate {kind : ActionKind} (hkind : kind = .rename ∨ kind = .restructure)
    (hp : p ∈ s.paths) (h : s.relocate false kind p q = (s', .ok op)) :
    Recorded kind p s s' op ∧ (op.succeeded = true → p ≠ q → op.newPath = some q) := by
  by_cases hne : p = q
  · simp only [relocate, if_pos hne] at h
    cases h
    refine ⟨⟨rfl, rfl, .idle rfl ?_ ?_⟩, fun _ hpq => absurd hne hpq⟩
    all_goals rcases hkind with rfl | rfl <;> rfl
  · by_cases hq : q ∈ s.paths
    · simp only [relocate, if_neg hne, contains_iff.mpr hq, if_true] at h
      cases h
      exact ⟨recorded_failed _ _ _ _, fun hsucceeded => by simp [Operation.succeeded] at hsucceeded⟩
    · rcases mem_paths.mp hp with ⟨t, ht, rfl⟩
      rcases relocate_eq_ok kind ht hne hq with ⟨s₁, hrun, htokens⟩
      rw [h] at hrun
      cases hrun
      refine ⟨⟨rfl, rfl, .moved hp (paths_of_movedTokens htokens) ?_ ?_⟩, fun _ _ => rfl⟩
      all_goals rcases hkind with rfl | rfl <;> rfl

theorem recorded_moveTo {kind : ActionKind} (hkind : kind = .rename ∨ kind = .restructure)
    (h : moveTo kind s (p, q) = (s', .ok op)) :
    Recorded kind p s s' op ∧ (op.succeeded = true → p ≠ q → op.newPath = some q) := by
  unfold moveTo at h
  split at h
  · next hp => exact recorded_relocate hkind (contains_iff.mp hp) h
  · cases h
    exact ⟨recorded_failed _ _ _ _, fun hsucceeded => by simp [Operation.succeeded] at hsucceeded⟩

theorem recorded_renameTarget {target : String × Option String}
    (h : s.renameTarget false target = (s', .ok op)) : Recorded .rename target.1 s s' op := by
  rcases target with ⟨path, newPath⟩
  by_cases hpath : path ∈ s.paths
  · simp only [renameTarget, contains_iff.mpr hpath, Bool.not_true, Bool.false_eq_true,
      if_false] at h
    split at h
    · exact (recorded_relocate (.inl rfl) hpath h).1
    · cases h
      exact recorded_failed _ _ _ _
  · simp only [renameTarget, contains_eq_false_iff.mpr hpath, Bool.not_false, if_true] at h
    cases h
    exact recorded_failed _ _ _ _

theorem recorded_restructureTarget (h : s.restructureTarget false p = (s', .ok op)) :
    Recorded .restructure p s s' op := by
  by_cases hp : p ∈ s.paths
  · simp only [restructureTarget, contains_iff.mpr hp, Bool.not_true, Bool.false_eq_true,
      if_false] at h
    split at h
    · exact (recorded_relocate (.inr rfl) hp h).1
    · cases h
      exact recorded_failed _ _ _ _
  · simp only [restructureTarget, contains_eq_false_iff.mpr hp, Bool.not_false, if_true] at h
    cases h
    exact recorded_failed _ _ _ _

theorem recorded_mergeSource {keep : String} (h : s.mergeSource false keep p = (s', .ok op)) :
    Recorded .merge p s s' op := by
  by_cases hp : p ∈ s.paths
  · rcases mergeSource_eq_ok keep hp with ⟨s₁, op₁, hrun, _, hpaths, _⟩
    rw [h] at hrun
    cases hrun
    simp only [mergeSource, contains_iff.mpr hp, Bool.not_true, Bool.false_eq_true,
      if_false] at h
    cases h
    exact ⟨rfl, rfl, .removed hp hpaths rfl rfl⟩
  · simp only [mergeSource, contains_eq_false_iff.mpr hp, Bool.not_false, if_true] at h
    cases h
    exact recorded_failed _ _ _ _

theorem recorded_splitTarget {note : String} (h : s.splitTarget false note p = (s', .ok op)) :
    Recorded .split p s s' op := by
  unfold splitTarget at h
  split at h
  · cases h
    exact recorded_failed _ _ _ _
  · cases h
    exact ⟨rfl, rfl, .idle (paths_edit _ _ _) rfl rfl⟩

theorem recorded_deleteTarget (h : s.deleteTarget false p = (s', .ok op)) :
    Recorded .delete p s s' op := by
  unfold deleteTarget at h
  split at h
  · cases h
    exact recorded_failed _ _ _ _
  · next hp =>
    simp only [Bool.false_eq_true, if_false] at h
    split at h
    · cases h
      exact recorded_failed _ _ _ _
    · cases h
      have hmem : p ∈ s.paths := contains_iff.mp (by simpa using hp)
      exact ⟨rfl, rfl, .removed hmem (paths_erase s p) rfl rfl⟩

theorem recorded_describeTarget (h : s.describeTarget false p = (s', .ok op)) :
    Recorded .updateReferences p s s' op := by
  unfold describeTarget at h
  split at h
  · cases h
    exact recorded_failed _ _ _ _
  · dsimp only at h
    split at h
    · cases h
      exact ⟨rfl, rfl, .idle rfl rfl rfl⟩
    · split at h
      · cases h
        exact ⟨rfl, rfl, .idle rfl rfl rfl⟩
      · cases h
        exact ⟨rfl, rfl, .idle (paths_edit _ _ _) rfl rfl⟩

/-! ## Runs -/

/-- Every operation of a run comes of the step on one of its targets. -/
theorem TargetRun.exists_target {step : TargetStep β} {bs : List β} {P : β → Operation → Prop}
    (h : TargetRun step bs s s' ops)
    (hstep : ∀ b ∈ bs, ∀ s s' op, step s b = (s', .ok op) → P b op) :
    ∀ op ∈ ops, ∃ b ∈ bs, P b op := by
  induction h with
  | nil s => exact fun op hop => absurd hop List.not_mem_nil
  | cons hfirst _ ih =>
    intro op hop
    rcases List.mem_cons.mp hop with rfl | hlater
    · exact ⟨_, List.mem_cons_self, hstep _ List.mem_cons_self _ _ _ hfirst⟩
    · rcases ih (fun b hb => hstep b (List.mem_cons_of_mem _ hb)) op hlater with ⟨b, hb, hP⟩
      exact ⟨b, List.mem_cons_of_mem _ hb, hP⟩

/-- Each operation of a run of moves is one of them, and leads to its target if it succeeds. -/
theorem moves_operations {kind : ActionKind} {moves : List (String × String)}
    (hkind : kind = .rename ∨ kind = .restructure)
    (h : TargetRun (moveTo kind) moves s s' ops) : ∀ op ∈ ops, ∃ b ∈ moves,
      op.kind = kind ∧ op.path = b.1 ∧
        (op.succeeded = true → b.1 ≠ b.2 → op.newPath = some b.2) := by
  refine h.exists_target fun b _ s s' op hop => ?_
  rcases recorded_moveTo hkind hop with ⟨hrecorded, hnew⟩
  exact ⟨hrecorded.kind_eq, hrecorded.path_eq, hnew⟩

/-- A merge is refused as a whole, or goes over the paths after the first of its group. -/
theorem merge_cases {group : List String} (h : s.merge false group = (s', .ok ops)) :
    (s' = s ∧ ∃ path fault, ops = [{ kind := .merge, path, fault := some fault }]) ∨
      TargetRun (mergeSource false (group.headD "")) group.tail s s' ops := by
  rcases group with - | ⟨keep, - | ⟨source, sources⟩⟩
  · cases h
    exact .inl ⟨rfl, _, _, rfl⟩
  · cases h
    exact .inl ⟨rfl, _, _, rfl⟩
  · cases hkeep : s.contains keep with
    | false =>
      simp only [merge, hkeep, Bool.not_false, if_true] at h
      cases h
      exact .inl ⟨rfl, _, _, rfl⟩
    | true =>
      simp only [merge, hkeep, Bool.not_true, Bool.false_eq_true, if_false] at h
      exact .inr (forTargets_eq_ok_iff.mp h)

/-- A merge takes tokens from the paths after the first of its group only. -/
theorem merge_operations {group : List String}
    (h : s.runAction false ((Draft.merge group).toAction "") = (s', .ok ops)) :
    ∀ op ∈ ops, op.succeeded = true → op.path ∈ group.tail := by
  have hmerge : s.merge false group = (s', .ok ops) := h
  intro op hop hsucceeded
  rcases merge_cases hmerge with ⟨_, path, fault, rfl⟩ | hrun
  · rw [List.mem_singleton.mp hop] at hsucceeded
    cases hsucceeded
  · have hsource := hrun.exists_target (P := fun source op => op.path = source)
      (fun _ _ _ _ _ hstep => (recorded_mergeSource hstep).path_eq) op hop
    rcases hsource with ⟨source, hmem, rfl⟩
    exact hmem

/-- A run of steps of one kind keeps the balance that each of them keeps. -/
theorem TargetRun.recorded {step : TargetStep β} {bs : List β} {kind : ActionKind}
    {path : β → String} (h : TargetRun step bs s s' ops)
    (hstep : ∀ b s s' op, step s b = (s', .ok op) → Recorded kind (path b) s s' op) :
    (∀ op ∈ ops, op.kind = kind) ∧ Accounted s s' ops := by
  induction h with
  | nil s => exact ⟨fun op hop => absurd hop List.not_mem_nil, .refl s⟩
  | cons hfirst _ ih =>
    have hone := hstep _ _ _ _ hfirst
    exact ⟨List.forall_mem_cons.mpr ⟨hone.kind_eq, ih.1⟩, hone.accounted.trans ih.2⟩

/-- Every action of every kind keeps the balance, and its operations are of its kind. -/
theorem recorded_runAction {a : Action} (h : s.runAction false a = (s', .ok ops)) :
    (∀ op ∈ ops, op.kind = a.kind) ∧ Accounted s s' ops := by
  unfold runAction at h
  cases hkind : a.kind with
  | rename =>
    rw [hkind] at h
    exact (forTargets_eq_ok_iff.mp h).recorded fun _ _ _ _ => recorded_renameTarget
  | merge =>
    rw [hkind] at h
    rcases merge_cases h with ⟨rfl, path, fault, rfl⟩ | hrun
    · exact ⟨by simp, .failed s' .merge path fault⟩
    · exact hrun.recorded fun _ _ _ _ => recorded_mergeSource
  | split =>
    rw [hkind] at h
    exact (forTargets_eq_ok_iff.mp h).recorded fun _ _ _ _ => recorded_splitTarget
  | restructure =>
    rw [hkind] at h
    exact (forTargets_eq_ok_iff.mp h).recorded fun _ _ _ _ => recorded_restructureTarget
  | delete =>
    rw [hkind] at h
    exact (forTargets_eq_ok_iff.mp h).recorded fun _ _ _ _ => recorded_deleteTarget
  | create =>
    rw [hkind] at h
    exact (forTargets_eq_ok_iff.mp h).recorded fun _ _ _ _ => recorded_createTarget
  | updateReferences =>
    rw [hkind] at h
    exact (forTargets_eq_ok_iff.mp h).recorded fun _ _ _ _ => recorded_describeTarget

/-- What holds of the operations of every draft holds of the operations of a run. -/
theorem DraftRun.forall_operations {ds : List Draft} {P : Operation → Prop}
    (h : DraftRun ds s s' ops)
    (hdrafts : ∀ d ∈ ds, ∀ (s s' : OpenStore) (ops : List Operation),
      s.runAction false (d.toAction "") = (s', .ok ops) → ∀ op ∈ ops, P op) :
    ∀ op ∈ ops, P op := by
  induction h with
  | nil s => exact fun op hop => absurd hop List.not_mem_nil
  | cons haction _ ih =>
    refine List.forall_mem_append.mpr ⟨hdrafts _ List.mem_cons_self _ _ _ haction, ih ?_⟩
    exact fun d hd => hdrafts d (List.mem_cons_of_mem _ hd)

/-- A whole run keeps the balance, whatever of it fails. -/
theorem DraftRun.accounted {ds : List Draft} (h : DraftRun ds s s' ops) : Accounted s s' ops := by
  induction h with
  | nil s => exact .refl s
  | cons haction _ ih => exact (recorded_runAction haction).2.trans ih

end Store
end DesignTokens
