import DesignTokens.Proofs.Audit.Findings
import DesignTokens.Proofs.Links.Order
import DesignTokens.Proofs.Migration.Carrying
import DesignTokens.Proofs.Migration.Invariants
import DesignTokens.Proofs.Migration.Planned
import DesignTokens.Proofs.Migration.Relocations
import DesignTokens.Proofs.Store.Recognition

/-!
# The conservative scenario

The conservative scenario creates placeholders for missing paths, moves tokens that nothing refers
to, and fills in descriptions.  Which tokens nothing refers to was read off the links of the
audited store; whether a move finds references is read off the texts at the time of the move.  If
the paths of the store have neither blanks nor braces then both see the same references, and
nothing that the scenario does brings in new ones to a path that is still to be moved.  So no
reference is ever rewritten, and every token keeps what it says.
-/

namespace DesignTokens

open Reference

namespace Token

variable {t : Token} {p q : String}

theorem mentions_empty (h : t.value.text? = some "") : t.mentions p = true ↔ p = "" := by
  rw [mentions_iff, h]
  have hnone : embedded "" = [] := rfl
  have htrim : Text.trim "" = "" := rfl
  simp [hnone, htrim, eq_comm]

/-- A moved token says what it said before. -/
theorem not_references_moved (h : t.references p = false) (hne : t.path ≠ p) (q : String) :
    ({ t with path := q } : Token).references p = false := by
  rw [← Bool.not_eq_true, references_iff] at h ⊢
  exact fun href => h ⟨hne, href.2⟩

end Token

namespace Store

variable {s s' cur : OpenStore} {moves : List (String × String)} {place : String → String}
  {op : Operation} {p q : String}

/-! ## What nothing refers to -/

/-- The dependents of a path in the report are the nodes with a link to it. -/
theorem mem_dependents {t : LinkThresholds} (hp : p ∈ s.paths) :
    q ∈ (s.linkReport t).dependents p ↔ s.graph.Leads q p := by
  obtain ⟨n, hn⟩ : ∃ n, (s.linkReport t).node? p = some n := by
    rw [← Option.isSome_iff_exists, LinkReport.node?, List.find?_isSome]
    exact ⟨s.graph.nodeReport s.graph.survey p, List.mem_map_of_mem hp, by
      simp [LinkGraph.nodeReport]⟩
  have hpath : n.path = p := by simpa using List.find?_some hn
  rcases List.mem_map.mp (List.mem_of_find?_eq_some hn) with ⟨v, _, rfl⟩
  rw [LinkReport.dependents, hn, ← hpath]
  exact Text.mem_sorted.trans LinkGraph.mem_predecessors

/-- A token of a store refers to a bare path of it exactly if there is a link. -/
theorem references_iff_leads {t : Token} (ht : t ∈ s.tokens) (hp : p ∈ s.paths) (hbare : IsBare p)
    (hne : t.path ≠ p) : t.references p = true ↔ s.graph.Leads t.path p := by
  rw [leads_iff_of_mem ht, Token.mem_targets_iff_references hne (contains_iff.mpr hp)]
  simp [hp, hbare]

/-! ## The invariant of the run -/

/-- What a run with independent moves keeps of the store `s`: every token stands in `cur`, with its
value, resolved value and declared kind, at its own path or where a move takes it, no two of them at
one place, and no token refers to a path that is still to be moved. -/
structure Undisturbed (moves : List (String × String)) (place : String → String)
    (s cur : OpenStore) : Prop where
  injOn : ∀ x ∈ s.paths, ∀ y ∈ s.paths, place x = place y → x = y
  placed : ∀ x ∈ s.paths, place x = x ∨ (x, place x) ∈ moves
  found : ∀ t ∈ s.tokens, ∃ t' ∈ cur.tokens, t'.path = place t.path ∧ t'.value = t.value ∧
    t'.resolved = t.resolved ∧ t'.declared = t.declared
  silent : ∀ u ∈ cur.tokens, ∀ b ∈ moves, b.1 ∈ cur.paths → u.references b.1 = false

namespace Undisturbed

theorem refl (h : ∀ u ∈ s.tokens, ∀ b ∈ moves, u.references b.1 = false) :
    Undisturbed moves id s s where
  injOn _ _ _ _ h := h
  placed _ _ := .inl rfl
  found t ht := ⟨t, ht, rfl, rfl, rfl, rfl⟩
  silent u hu b hb _ := h u hu b hb

theorem carried (h : Undisturbed moves place s cur) : Carried place s cur where
  injOn := h.injOn
  found t ht := by
    rcases h.found t ht with ⟨t', ht', hpath, _, _, hdeclared⟩
    exact ⟨t', ht', hpath, hdeclared⟩

/-- A new token that refers to no source of a move disturbs nothing. -/
theorem append (h : Undisturbed moves place s cur) {t : Token}
    (htokens : s'.tokens = cur.tokens ++ [t]) (hpath : ∀ b ∈ moves, t.path ≠ b.1)
    (hsilent : ∀ b ∈ moves, t.references b.1 = false) : Undisturbed moves place s s' where
  injOn := h.injOn
  placed := h.placed
  found u hu := by
    rcases h.found u hu with ⟨u', hu', hrest⟩
    exact ⟨u', htokens ▸ List.mem_append_left _ hu', hrest⟩
  silent u hu b hb hsource := by
    have hold : b.1 ∈ cur.paths := by
      simpa [paths, htokens, Ne.symm (hpath b hb)] using hsource
    rw [htokens, List.mem_append, List.mem_singleton] at hu
    rcases hu with hu | rfl
    · exact h.silent u hu b hb hold
    · exact hsilent b hb

/-- Another description disturbs nothing. -/
theorem map (h : Undisturbed moves place s cur) {f : Token → Token}
    (htokens : s'.tokens = cur.tokens.map f)
    (hf : ∀ t, ∃ description, f t = { t with description }) : Undisturbed moves place s s' where
  injOn := h.injOn
  placed := h.placed
  found t ht := by
    rcases h.found t ht with ⟨t', ht', hrest⟩
    refine ⟨f t', htokens ▸ List.mem_map_of_mem ht', ?_⟩
    obtain ⟨d, hd⟩ := hf t'
    rw [hd]
    exact hrest
  silent u hu b hb hsource := by
    have hpaths : s'.paths = cur.paths := by
      rw [paths, htokens, List.map_map]
      refine List.map_congr_left fun t _ => ?_
      obtain ⟨d, hd⟩ := hf t
      rw [Function.comp_apply, hd]
    rw [htokens] at hu
    rcases List.mem_map.mp hu with ⟨t, ht, rfl⟩
    obtain ⟨d, hd⟩ := hf t
    rw [hd]
    exact h.silent t ht b hb (hpaths ▸ hsource)

/-- One of the moves leaves the other tokens as they are. -/
theorem movedTokens (h : Undisturbed moves place s cur) (hmoves : Independent moves) {t : Token}
    (ht : t ∈ cur.tokens) (hmove : (t.path, q) ∈ moves) (hq : q ∉ cur.paths)
    (htokens : s'.tokens = cur.movedTokens t q) :
    Undisturbed moves (fun x => if place x = t.path then q else place x) s s' := by
  have hmem := path_mem_paths ht
  -- Nothing refers to the path that is left, so no token follows the moved one.
  have hstay : ∀ u ∈ cur.tokens, u.path ≠ t.path → u ∈ s'.tokens := by
    intro u hu hne
    rw [htokens, mem_movedTokens]
    exact .inl ⟨u, hu, hne, Token.follow_of_not_references (h.silent u hu _ hmove hmem)⟩
  have hlast : ({ t with path := q } : Token) ∈ s'.tokens := by
    rw [htokens, mem_movedTokens]
    exact .inr rfl
  refine ⟨fun x hx y hy heq => ?_, fun x hx => ?_, fun u hu => ?_, fun u hu b hb hsource => ?_⟩
  · exact (h.carried.trans (carried_of_movedTokens ht hq htokens)).injOn x hx y hy heq
  · split
    · next hleft =>
      -- What is left is a source, so no move has led there.
      rcases h.placed x hx with hstays | hmoved
      · exact .inr (hstays.symm.trans hleft ▸ hmove)
      · exact absurd hleft.symm (hmoves.apart _ hmove _ hmoved)
    · exact h.placed x hx
  · rcases h.found u hu with ⟨u', hu', hpath, hrest⟩
    by_cases hleft : u'.path = t.path
    · rw [eq_of_path_eq hu' ht hleft] at hrest
      exact ⟨_, hlast, (if_pos (hpath.symm.trans hleft)).symm, hrest⟩
    · refine ⟨u', hstay u' hu' hleft, ?_, hrest⟩
      rw [if_neg (hpath ▸ hleft), hpath]
  · have hbq : b.1 ≠ q := hmoves.apart b hb _ hmove
    have hsource' : b.1 ∈ cur.paths ∧ b.1 ≠ t.path := by
      simpa [paths_of_movedTokens htokens, hbq] using hsource
    rw [htokens, mem_movedTokens] at hu
    rcases hu with ⟨v, hv, _, rfl⟩ | rfl
    · rw [Token.follow_of_not_references (h.silent v hv _ hmove hmem)]
      exact h.silent v hv b hb hsource'.1
    · exact Token.not_references_moved (h.silent t ht b hb hsource'.1) hsource'.2.symm q

end Undisturbed

/-! ## Single steps -/

/-- An empty placeholder outside the sources of the moves disturbs nothing. -/
theorem undisturbed_createTarget {description : String} (h : Undisturbed moves place s cur)
    (hsources : ∀ b ∈ moves, p ≠ b.1 ∧ b.1 ≠ "")
    (hop : cur.createTarget false "" description p = (s', .ok op)) :
    Undisturbed moves place s s' ∧ op.updated = [] := by
  by_cases hp : p ∈ cur.paths
  · rw [createTarget_of_mem hp] at hop
    cases hop
    exact ⟨h, rfl⟩
  · obtain ⟨s₁, hrun, htokens⟩ := createTarget_eq_of_free "" description hp
    rw [hop] at hrun
    cases hrun
    refine ⟨h.append htokens (fun b hb => (hsources b hb).1) fun b hb => ?_, rfl⟩
    have hempty : (Value.infer "").text? = some "" := by decide +kernel
    rw [← Bool.not_eq_true, Token.references_iff, Token.mentions_empty hempty]
    exact fun href => (hsources b hb).2 href.2

/-- A move finds no reference to rewrite. -/
theorem undisturbed_moveTo (h : Undisturbed moves place s cur) (hmoves : Independent moves)
    (hmove : (p, q) ∈ moves) (hop : moveTo .rename cur (p, q) = (s', .ok op)) :
    (∃ place', Undisturbed moves place' s s') ∧ op.updated = [] := by
  have hne : p ≠ q := hmoves.apart _ hmove _ hmove
  by_cases hp : p ∈ cur.paths
  · by_cases hq : q ∈ cur.paths
    · rw [moveTo_of_taken hp hne hq] at hop
      cases hop
      exact ⟨⟨place, h⟩, rfl⟩
    · rcases mem_paths.mp hp with ⟨t, ht, rfl⟩
      obtain ⟨s₁, hrun, htokens⟩ := moveTo_of_free .rename ht hne hq
      rw [hop] at hrun
      cases hrun
      have hnone : cur.referrers t.path = [] := by
        simpa [referrers] using fun u hu => h.silent u hu _ hmove hp
      exact ⟨⟨_, h.movedTokens hmoves ht hmove hq htokens⟩, hnone⟩
  · rw [moveTo_of_missing hp] at hop
    cases hop
    exact ⟨⟨place, h⟩, rfl⟩

theorem undisturbed_describeTarget (h : Undisturbed moves place s cur)
    (hop : cur.describeTarget false p = (s', .ok op)) :
    Undisturbed moves place s s' ∧ op.updated = [] := by
  unfold describeTarget at hop
  split at hop
  · cases hop
    exact ⟨h, rfl⟩
  · dsimp only at hop
    split at hop
    · cases hop
      exact ⟨h, rfl⟩
    · split at hop
      · cases hop
        exact ⟨h, rfl⟩
      · cases hop
        refine ⟨h.map (tokens_edit _ _ _) fun t => ?_, rfl⟩
        unfold editToken
        split
        · exact ⟨_, rfl⟩
        · exact ⟨t.description, rfl⟩

end Store

/-! ## The scenario -/

open Store

variable {α : Type}

/-- Every draft of the conservative scenario keeps the invariant and rewrites no reference. -/
theorem Findings.DrawnFrom.conservative_keeps {f : Findings α} {s : OpenStore} (h : f.DrawnFrom s)
    (hsources : ∀ c ∈ f.safe, c.source ≠ "") :
    ∀ d ∈ (conservativePhases f).flatMap PhaseDraft.actions,
      Store.Keeps (fun cur => ∃ place, Undisturbed (suggestedMoves f.safe) place s cur)
        (fun op => op.updated = []) false (d.toAction "") := by
  let P : OpenStore → Prop := fun cur => ∃ place, Undisturbed (suggestedMoves f.safe) place s cur
  intro d hd cur cur' ops hcur hrun
  simp only [conservativePhases, List.flatMap_cons, List.flatMap_nil, List.mem_append,
    List.mem_cons, List.not_mem_nil, or_false] at hd
  rcases hd with rfl | rfl | rfl
  · refine (targetRun_of_placeholders hrun).keeps (P := P) (fun p hp s₁ s₂ op hs₁ hop => ?_) hcur
    obtain ⟨place, hplace⟩ := hs₁
    have hapart : ∀ b ∈ suggestedMoves f.safe, p ≠ b.1 ∧ b.1 ≠ "" := by
      intro b hb
      rcases List.mem_map.mp hb with ⟨c, hc, rfl⟩
      refine ⟨?_, hsources c hc⟩
      rintro rfl
      exact h.unresolved_free _ hp (h.source_mem c (h.safe_sublist.subset hc))
    exact (undisturbed_createTarget hplace hapart hop).imp_left fun hafter => ⟨place, hafter⟩
  · refine (targetRun_of_renames hrun).keeps (P := P) (fun b hb s₁ s₂ op hs₁ hop => ?_) hcur
    obtain ⟨place, hplace⟩ := hs₁
    exact undisturbed_moveTo hplace h.independent_safe hb hop
  · refine (targetRun_of_documentation hrun).keeps (P := P) (fun p _ s₁ s₂ op hs₁ hop => ?_) hcur
    obtain ⟨place, hplace⟩ := hs₁
    exact (undisturbed_describeTarget hplace hop).imp_left fun hafter => ⟨place, hafter⟩

/-- No token of a store with clean paths refers to the source of a safe suggestion. -/
theorem not_references_of_mem_safe [Scalar α] {s : OpenStore} (hclean : ∀ p ∈ s.paths, IsClean p)
    (c : Settings α) (check : ContrastChecker α) {x : Suggestion α}
    (hx : x ∈ (Findings.ofAudit (s.auditWith c check) c.migration.safeRename).safe) {t : Token}
    (ht : t ∈ s.tokens) : t.references x.source = false := by
  have hdrawn := Findings.drawnFrom_ofAudit s c check c.migration.safeRename
  have hsource : x.source ∈ s.paths := hdrawn.source_mem x (hdrawn.safe_sublist.subset hx)
  have hnone : (s.linkReport c.links).dependents x.source = [] :=
    List.isEmpty_iff.mp (Bool.and_eq_true_iff.mp (List.mem_filter.mp hx).2).2
  rw [← Bool.not_eq_true]
  intro href
  have hlink := (references_iff_leads ht hsource (hclean _ hsource).isBare
    (Token.references_iff.mp href).1).mp href
  rw [← mem_dependents hsource (t := c.links), hnone] at hlink
  exact List.not_mem_nil hlink

/-- Running the conservative scenario on the store that was planned, whose paths have neither blanks
nor braces, rewrites no reference, wherever the run stops.  Every token is found, with its value,
its resolved value and its declared kind, at its own path or at the path of its suggestion, each at
a different one. -/
theorem conservative_rewrites_nothing [Scalar α] {c : Settings α} {o : RunOptions}
    (hsound : c.grading.isSound = true) (hdry : o.dryRun = false) {s : OpenStore}
    (hclean : ∀ p ∈ s.paths, IsClean p) (check : ContrastChecker α) :
    ∃ p sc, s.plan? c check = .ok p ∧ p.scenario? .conservative = some sc ∧
      let run := s.execute o .conservative sc.phases
      (∀ op ∈ run.2.operations, op.updated = []) ∧
        ∃ place : String → String,
          (∀ x ∈ s.paths, ∀ y ∈ s.paths, place x = place y → x = y) ∧
          ∀ t ∈ s.tokens,
            (∃ t' ∈ run.1.tokens, t'.path = place t.path ∧ t'.value = t.value ∧
              t'.resolved = t.resolved ∧ t'.declared = t.declared) ∧
            (place t.path = t.path ∨
              ∃ x ∈ p.audit.suggestions, x.source = t.path ∧ x.target = place t.path) := by
  refine ⟨_, _, plan?_eq_ok hsound s check, s.scenario?_plan c check .conservative, ?_⟩
  let f := Findings.ofAudit (s.auditWith c check) c.migration.safeRename
  have hf : f.DrawnFrom s := Findings.drawnFrom_ofAudit s c check _
  have hsources : ∀ x ∈ f.safe, x.source ≠ "" := fun x hx =>
    (hclean _ (hf.source_mem x (hf.safe_sublist.subset hx))).1
  have hstart : Undisturbed (suggestedMoves f.safe) id s s := by
    refine .refl fun u hu b hb => ?_
    rcases List.mem_map.mp hb with ⟨x, hx, rfl⟩
    exact not_references_of_mem_safe hclean c check hx hu
  have hphases : (s.plannedScenario c check .conservative).phases =
      phasesOf .conservative (conservativePhases f) := rfl
  obtain ⟨⟨place, hend⟩, hops⟩ := execute_phasesOf_keeps hdry .conservative
    (hf.conservative_keeps hsources) ⟨id, hstart⟩
  dsimp only
  rw [hphases]
  refine ⟨hops, place, hend.injOn, fun t ht => ⟨hend.found t ht, ?_⟩⟩
  refine (hend.placed t.path (path_mem_paths ht)).imp_right fun hmoved => ?_
  rcases List.mem_map.mp hmoved with ⟨x, hx, heq⟩
  exact ⟨x, hf.safe_sublist.subset hx, congrArg Prod.fst heq, congrArg Prod.snd heq⟩

/-- A token that nothing but its own text names, and a dangling reference. -/
def namedByItself : OpenStore :=
  ⟨[{ path := "bg-primary", value := .text "bg-primary", resolved := some (.color "#fff") },
    { path := "x", value := .text "\x7bmissing\x7d" }], by decide⟩

/-- The token moves to the path that is suggested for it, and keeps its text and its resolved
value. -/
theorem conservative_rewrites_nothing_namedByItself :
    ∃ (c : Settings Rat) (check : ContrastChecker Rat) (o : RunOptions) (p : Plan Rat)
      (sc : Scenario Rat), c.grading.isSound = true ∧ o.dryRun = false ∧ o.stopOnError = true ∧
      (∀ q ∈ namedByItself.paths, IsClean q) ∧
      namedByItself.plan? c check = .ok p ∧ p.scenario? .conservative = some sc ∧
      (namedByItself.migrate c check .conservative o).1.paths =
        ["x", "missing", "background.accent"] ∧
      (∀ op ∈ (namedByItself.execute o .conservative sc.phases).2.operations, op.updated = []) ∧
      ∃ t' ∈ (namedByItself.execute o .conservative sc.phases).1.tokens,
        t'.value = .text "bg-primary" ∧ t'.resolved = some (.color "#fff") := by
  have hsound : (Settings.standard : Settings Rat).grading.isSound = true := by decide +kernel
  have hclean : ∀ q ∈ namedByItself.paths, IsClean q := by decide +kernel
  let check : ContrastChecker Rat := fun _ _ => none
  let o : RunOptions := { stopOnError := true }
  have hdry : o.dryRun = false := rfl
  rcases conservative_rewrites_nothing hsound hdry hclean check with
    ⟨p, sc, hplan, hsc, hops, place, _, hfound⟩
  obtain ⟨⟨t', ht', _, hvalue, hresolved, _⟩, _⟩ := hfound _ List.mem_cons_self
  exact ⟨.standard, check, o, p, sc, hsound, hdry, rfl, hclean, hplan, hsc, by decide +kernel, hops,
    t', ht', hvalue, hresolved⟩

end DesignTokens
