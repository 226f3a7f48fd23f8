import DesignTokens.Text.Ordered
import Mathlib.Data.List.Induction
import Mathlib.Data.List.Nodup

/-!
# Lists without repeats and groups

`firsts` and `sorted` keep the members of a list and drop its repeats.  Dropping some items and
then others drops both.  The groups of `groupBy` have different keys, so items that differ in some
respect are never found in two groups.
-/

namespace DesignTokens.Text

/-- When the items that a map keeps have the names of those they come from, the names are still in
their order. -/
theorem map_filterMap_sublist {α β γ : Type} {f : α → Option β} {g : β → γ} {k : α → γ}
    (h : ∀ a b, f a = some b → g b = k a) (items : List α) :
    ((items.filterMap f).map g).Sublist (items.map k) := by
  induction items with
  | nil => exact .slnil
  | cons a items ih =>
    cases ha : f a with
    | none =>
      rw [List.filterMap_cons_none ha]
      exact ih.cons _
    | some b =>
      rw [List.filterMap_cons_some ha, List.map_cons, List.map_cons, h a b ha]
      exact ih.cons_cons _

theorem filterMap_sublist_map {α β : Type} {f : α → Option β} {k : α → β}
    (h : ∀ a b, f a = some b → b = k a) (items : List α) :
    (items.filterMap f).Sublist (items.map k) := by
  simpa using map_filterMap_sublist (g := id) h items

/-! ## First occurrences -/

section

variable {α : Type} [BEq α] [LawfulBEq α] {items : List α} {a : α}

theorem mem_firsts : a ∈ firsts items ↔ a ∈ items := by
  -- The fold has seen some items already, so the statement is about any such start.
  have hfold : ∀ (rest seen : List α),
      a ∈ rest.foldl (fun seen b => if seen.contains b then seen else seen ++ [b]) seen ↔
        a ∈ seen ∨ a ∈ rest := by
    intro rest
    induction rest with
    | nil => simp
    | cons b rest ih =>
      intro seen
      rw [List.foldl_cons, ih]
      by_cases hb : b ∈ seen
      · -- A repeat adds no member.
        have hor : a ∈ seen ∨ a = b ↔ a ∈ seen :=
          ⟨fun h => h.elim id fun hab => hab ▸ hb, .inl⟩
        simp [hb, ← or_assoc, hor]
      · simp [hb, or_assoc]
  simpa [firsts] using hfold items []

theorem nodup_firsts (items : List α) : (firsts items).Nodup := by
  -- What was kept so far has no repeats, and an item is only added if it is new.
  have hfold : ∀ rest seen : List α, seen.Nodup →
      (rest.foldl (fun seen b => if seen.contains b then seen else seen ++ [b]) seen).Nodup := by
    intro rest
    induction rest with
    | nil => exact fun _ h => h
    | cons b rest ih =>
      intro seen hseen
      rw [List.foldl_cons]
      by_cases hb : b ∈ seen
      · simpa [hb] using ih seen hseen
      · have hmore : (seen ++ [b]).Nodup := by
          simpa using List.Nodup.concat hb hseen
        simpa [hb] using ih _ hmore
  exact hfold items [] List.nodup_nil

/-- Without repeats there is nothing to drop. -/
theorem firsts_of_nodup (h : items.Nodup) : firsts items = items := by
  have hfold : ∀ rest seen : List α, (seen ++ rest).Nodup →
      rest.foldl (fun seen b => if seen.contains b then seen else seen ++ [b]) seen =
        seen ++ rest := by
    intro rest
    induction rest with
    | nil => simp
    | cons b rest ih =>
      intro seen hseen
      -- No item of a list without repeats was seen before.
      have hb : b ∉ seen := by
        intro hmem
        exact (List.nodup_append.mp hseen).2.2 b hmem b List.mem_cons_self rfl
      have hfree : ¬ seen.contains b = true := by simpa using hb
      have hnext : seen ++ b :: rest = (seen ++ [b]) ++ rest := by simp
      rw [List.foldl_cons, if_neg hfree]
      rw [hnext] at hseen ⊢
      exact ih _ hseen
  exact hfold items [] (by simpa using h)

theorem firsts_concat (items : List α) (a : α) :
    firsts (items ++ [a]) = if a ∈ items then firsts items else firsts items ++ [a] := by
  rw [firsts, List.foldl_append]
  change (if (firsts items).contains a then firsts items else firsts items ++ [a]) = _
  simp only [List.contains_iff_mem, mem_firsts]

/-- Repeats among the images are dropped alike, whether or not those of the items went before. -/
theorem firsts_map_firsts {β : Type} [BEq β] [LawfulBEq β] (f : α → β) (items : List α) :
    firsts ((firsts items).map f) = firsts (items.map f) := by
  induction items using List.reverseRecOn with
  | nil => rfl
  | append_singleton items a ih =>
    rw [firsts_concat, List.map_append, List.map_singleton, firsts_concat]
    by_cases ha : a ∈ items
    · rw [if_pos ha, if_pos (List.mem_map_of_mem ha), ih]
    · -- A new item is a new image unless another item has it already.
      have himage : f a ∈ (firsts items).map f ↔ f a ∈ items.map f := by
        simp only [List.mem_map, mem_firsts]
      rw [if_neg ha, List.map_append, List.map_singleton, firsts_concat, ih]
      simp only [himage]

/-! ## What is left of a list -/

omit [LawfulBEq α] in
theorem filter_outside_append (items gone more : List α) :
    (items.filter fun a => !gone.contains a).filter (fun a => !more.contains a) =
      items.filter fun a => !(gone ++ more).contains a := by
  rw [List.filter_filter]
  refine List.filter_congr fun a _ => ?_
  rw [List.contains_append, Bool.not_or, Bool.and_comm]

theorem filter_outside_of_disjoint {gone : List α} (h : ∀ a ∈ items, a ∉ gone) :
    (items.filter fun a => !gone.contains a) = items := by
  refine List.filter_eq_self.mpr fun a ha => ?_
  simpa using h a ha

/-- Items that are dropped make no difference to those added if none of these is dropped. -/
theorem nodup_filter_append_iff {β : Type} {keep : β → Bool} {kept extra : List β}
    (hkept : kept.Nodup) (hextra : ∀ b ∈ extra, keep b = true) :
    (kept.filter keep ++ extra).Nodup ↔ (kept ++ extra).Nodup := by
  rw [List.nodup_append, List.nodup_append]
  refine and_congr (iff_of_true (hkept.filter keep) hkept) (and_congr_right fun _ => ?_)
  constructor
  · rintro h b hb c hc rfl
    exact h b (List.mem_filter.mpr ⟨hb, hextra b hc⟩) b hc rfl
  · exact fun h b hb => h b (List.mem_filter.mp hb).1

theorem filter_ne_eq_outside (items : List α) (a : α) :
    (items.filter fun b => b != a) = items.filter fun b => !([a].contains b) := by
  refine List.filter_congr fun b _ => ?_
  by_cases hb : b = a <;> simp [hb]

end

/-! ## Sorted texts -/

theorem mem_sorted {texts : List String} {t : String} : t ∈ sorted texts ↔ t ∈ texts := by
  unfold sorted
  rw [(List.mergeSort_perm _ _).mem_iff, mem_firsts]

theorem nodup_sorted (texts : List String) : (sorted texts).Nodup :=
  (List.mergeSort_perm _ _).nodup_iff.mpr (nodup_firsts texts)

theorem pairwise_lt_sorted (texts : List String) : (sorted texts).Pairwise (· < ·) := by
  have hle : (sorted texts).Pairwise fun a b => a ≤ b := by
    have hsort : (sorted texts).Pairwise fun a b => decide (a ≤ b) := by
      refine List.pairwise_mergeSort (fun a b c hab hbc => ?_) (fun a b => ?_) (firsts texts)
      · simpa using String.le_trans (by simpa using hab) (by simpa using hbc)
      · simpa using String.le_total a b
    exact hsort.imp fun h => by simpa using h
  -- Texts in order that differ are in strict order.
  refine hle.imp₂ (fun a b hab hne => ?_) (nodup_sorted texts)
  exact String.not_le.mp fun hba => hne (String.le_antisymm hab hba)

/-- An increasing list is determined by its members. -/
theorem eq_of_pairwise_lt {l l' : List String} (h : l.Pairwise (· < ·)) (h' : l'.Pairwise (· < ·))
    (hmem : ∀ t, t ∈ l ↔ t ∈ l') : l = l' := by
  have hnodup : ∀ {l : List String}, l.Pairwise (· < ·) → l.Nodup := fun h =>
    h.imp fun {a b} hlt (heq : a = b) => String.lt_irrefl _ (heq ▸ hlt)
  have hperm := (List.perm_ext_iff_of_nodup (hnodup h) (hnodup h')).mpr hmem
  exact hperm.eq_of_pairwise (fun a b _ _ hab hba => absurd hab (String.lt_asymm hba)) h h'

/-! ## Groups -/

variable {β γ : Type} {key : β → List String} {items : List β}

theorem eq_filter_of_mem_groupBy {group : List String × List β} (h : group ∈ groupBy key items) :
    group.2 = items.filter fun b => key b == group.1 := by
  rcases List.mem_map.mp h with ⟨k, _, rfl⟩
  rfl

/-- No group is empty: its key is the key of an item. -/
theorem exists_mem_of_mem_groupBy {group : List String × List β}
    (h : group ∈ groupBy key items) : ∃ b ∈ items, b ∈ group.2 := by
  rcases List.mem_map.mp h with ⟨k, hk, rfl⟩
  rcases List.mem_map.mp (mem_firsts.mp ((List.mergeSort_perm _ _).mem_iff.mp hk)) with
    ⟨b, hb, rfl⟩
  exact ⟨b, hb, List.mem_filter.mpr ⟨hb, by simp⟩⟩

/-- An item is in the group of its key and in no other. -/
theorem mem_group_iff {group : List String × List β} (h : group ∈ groupBy key items) {b : β} :
    b ∈ group.2 ↔ b ∈ items ∧ key b = group.1 := by
  rw [eq_filter_of_mem_groupBy h, List.mem_filter, beq_iff_eq]

theorem exists_group_of_mem {b : β} (h : b ∈ items) :
    ∃ group ∈ groupBy key items, group.1 = key b := by
  refine ⟨_, List.mem_map.mpr ⟨key b, ?_, rfl⟩, rfl⟩
  exact (List.mergeSort_perm _ _).mem_iff.mpr (mem_firsts.mpr (List.mem_map_of_mem h))

theorem nodup_keys_groupBy (key : β → List String) (items : List β) :
    ((groupBy key items).map Prod.fst).Nodup := by
  have hkeys : (groupBy key items).map Prod.fst =
      (firsts (items.map key)).mergeSort fun a b => !decide (b < a) := by
    simp [groupBy, Function.comp_def]
  rw [hkeys]
  exact (List.mergeSort_perm _ _).nodup_iff.mpr (nodup_firsts _)

/-- Names that tell the items apart occur once in all the groups together. -/
theorem nodup_flatten_groupBy {name : β → γ} (h : (items.map name).Nodup) :
    ((groupBy key items).map fun group => group.2.map name).flatten.Nodup := by
  rw [List.nodup_flatten]
  constructor
  · intro names hnames
    rcases List.mem_map.mp hnames with ⟨group, hgroup, rfl⟩
    rw [eq_filter_of_mem_groupBy hgroup]
    exact (List.filter_sublist.map name).nodup h
  · rw [List.pairwise_map]
    -- Two groups have different keys, and every item of a group has the key of the group.
    have hpairs : (groupBy key items).Pairwise fun a b => a.1 ≠ b.1 :=
      List.pairwise_map.mp (nodup_keys_groupBy key items)
    refine hpairs.imp_of_mem fun {a b} ha hb hne => ?_
    rw [eq_filter_of_mem_groupBy ha, eq_filter_of_mem_groupBy hb]
    intro p hp hq
    rcases List.mem_map.mp hp with ⟨x, hx, rfl⟩
    rcases List.mem_map.mp hq with ⟨y, hy, hname⟩
    rcases List.mem_filter.mp hx with ⟨hxmem, hxkey⟩
    rcases List.mem_filter.mp hy with ⟨hymem, hykey⟩
    -- One item would have both keys.
    have hsame : y = x := List.inj_on_of_nodup_map h hymem hxmem hname
    subst hsame
    simp only [beq_iff_eq] at hxkey hykey
    exact hne (hxkey.symm.trans hykey)

end DesignTokens.Text
