import DesignTokens.Proofs.Migration.Runs

/-!
# What a run keeps

A property of stores that every action of a scenario keeps holds after the whole run, wherever it
stops; and what is true of the operations of every action, as long as the property holds, is true
of all operations on record.
-/

namespace DesignTokens.Store

variable {P : OpenStore → Prop} {Q : Operation → Prop}

/-- From a store with the property the action leads to one with the property, and its operations
are as they should be. -/
def Keeps (P : OpenStore → Prop) (Q : Operation → Prop) (dry : Bool) (a : Action) : Prop :=
  ∀ s s' ops, P s → s.runAction dry a = (s', .ok ops) → P s' ∧ ∀ op ∈ ops, Q op

theorem TargetRun.keeps {β : Type} {step : TargetStep β} {bs : List β} {s s' : OpenStore}
    {ops : List Operation} (h : TargetRun step bs s s' ops)
    (hstep : ∀ b ∈ bs, ∀ s s' op, P s → step s b = (s', .ok op) → P s' ∧ Q op) (hs : P s) :
    P s' ∧ ∀ op ∈ ops, Q op := by
  induction h with
  | nil s => exact ⟨hs, fun op hop => absurd hop List.not_mem_nil⟩
  | cons hop _ ih =>
    obtain ⟨hnext, hfirst⟩ := hstep _ List.mem_cons_self _ _ _ hs hop
    obtain ⟨hlast, hrest⟩ := ih (fun b hb => hstep b (List.mem_cons_of_mem _ hb)) hnext
    exact ⟨hlast, List.forall_mem_cons.mpr ⟨hfirst, hrest⟩⟩

section

variable {o : RunOptions}

theorem runActions_keeps {as : List Action} (h : ∀ a ∈ as, Keeps P Q o.dryRun a)
    {s : OpenStore} (hs : P s) :
    P (runActions o as s).1 ∧ ∀ r ∈ (runActions o as s).2.1, ∀ op ∈ r.operations, Q op := by
  induction as generalizing s with
  | nil => exact ⟨hs, fun r hr => absurd hr List.not_mem_nil⟩
  | cons a as ih =>
    obtain ⟨s', r, hrun, hrecord, _⟩ := recordAction_eq s o a
    obtain ⟨hnext, hfirst⟩ := h a List.mem_cons_self s s' r.operations hs hrun
    obtain ⟨hlast, hrest⟩ := ih (fun b hb => h b (List.mem_cons_of_mem _ hb)) hnext
    simp only [runActions, hrecord]
    split
    · -- The actions that are skipped record no operation.
      refine ⟨hnext, List.forall_mem_cons.mpr ⟨hfirst, fun r' hr' => ?_⟩⟩
      rcases List.mem_map.mp hr' with ⟨b, _, rfl⟩
      exact fun op hop => absurd hop List.not_mem_nil
    · exact ⟨hlast, List.forall_mem_cons.mpr ⟨hfirst, hrest⟩⟩

theorem runPhases_keeps {phases : List Phase}
    (h : ∀ p ∈ phases, ∀ a ∈ p.actions, Keeps P Q o.dryRun a) {s : OpenStore} (hs : P s) :
    P (runPhases o phases s).1 ∧
      ∀ p ∈ (runPhases o phases s).2, ∀ r ∈ p.actions, ∀ op ∈ r.operations, Q op := by
  induction phases generalizing s with
  | nil => exact ⟨hs, fun p hp => absurd hp List.not_mem_nil⟩
  | cons p phases ih =>
    have hphase : P (s.runPhase o p).1 ∧
        ∀ r ∈ (s.runPhase o p).2.actions, ∀ op ∈ r.operations, Q op :=
      runActions_keeps (h p List.mem_cons_self) hs
    obtain ⟨hnext, hfirst⟩ := hphase
    obtain ⟨hlast, hrest⟩ := ih (fun q hq => h q (List.mem_cons_of_mem _ hq)) hnext
    simp only [runPhases]
    split
    · refine ⟨hnext, List.forall_mem_cons.mpr ⟨hfirst, fun q hq r hr => ?_⟩⟩
      rcases List.mem_map.mp hq with ⟨_, _, rfl⟩
      rcases List.mem_map.mp hr with ⟨_, _, rfl⟩
      exact fun op hop => absurd hop List.not_mem_nil
    · exact ⟨hlast, List.forall_mem_cons.mpr ⟨hfirst, hrest⟩⟩

/-- A run keeps what all of its actions keep, whatever fails and whether or not it stops then. -/
theorem execute_keeps {phases : List Phase}
    (h : ∀ p ∈ phases, ∀ a ∈ p.actions, Keeps P Q o.dryRun a) {s : OpenStore} (hs : P s)
    (approach : Approach) :
    P (s.execute o approach phases).1 ∧
      ∀ op ∈ (s.execute o approach phases).2.operations, Q op := by
  obtain ⟨hlast, hops⟩ := runPhases_keeps h hs
  refine ⟨hlast, fun op hop => ?_⟩
  rw [Execution.operations_eq] at hop
  rcases List.mem_flatMap.mp hop with ⟨p, hp, hop⟩
  rcases List.mem_flatMap.mp hop with ⟨r, hr, hop⟩
  exact hops p hp r hr op hop

end

/-- The actions of a planned scenario are its drafts under identifiers. -/
theorem exists_draft_of_mem_phasesOf {approach : Approach} {drafts : List PhaseDraft} {p : Phase}
    {a : Action} (hp : p ∈ phasesOf approach drafts) (ha : a ∈ p.actions) :
    ∃ d ∈ drafts.flatMap PhaseDraft.actions, ∃ id, a = d.toAction id := by
  rcases List.mem_map.mp hp with ⟨⟨draft, i⟩, hdraft, rfl⟩
  rcases List.mem_map.mp ha with ⟨⟨d, j⟩, hd, rfl⟩
  have hmem : d ∈ draft.actions.filter Draft.isUseful :=
    (List.mem_zipIdx' hd).2 ▸ List.getElem_mem _
  have hphase : draft ∈ drafts := (List.mem_zipIdx' hdraft).2 ▸ List.getElem_mem _
  exact ⟨d, List.mem_flatMap.mpr ⟨draft, hphase, (List.mem_filter.mp hmem).1⟩, _, rfl⟩

/-- A real run of a planned scenario keeps what all of its drafts keep. -/
theorem execute_phasesOf_keeps {o : RunOptions} (hdry : o.dryRun = false) (approach : Approach)
    {drafts : List PhaseDraft}
    (h : ∀ d ∈ drafts.flatMap PhaseDraft.actions, Keeps P Q false (d.toAction "")) {s : OpenStore}
    (hs : P s) :
    P (s.execute o approach (phasesOf approach drafts)).1 ∧
      ∀ op ∈ (s.execute o approach (phasesOf approach drafts)).2.operations, Q op := by
  refine execute_keeps (fun p hp a ha => ?_) hs approach
  rcases exists_draft_of_mem_phasesOf hp ha with ⟨d, hd, id, rfl⟩
  rw [hdry]
  exact h d hd

end DesignTokens.Store
