import DesignTokens.Proofs.Naming.Lenient

/-!
# What becomes of every segment in a scan

A scan skips the segments before the first property class and gives each later one to the first
free axis that knows it.  An account of a scan lists all segments with what became of them, and
everything that the scan reports is read off the account: what was skipped, which value each axis
has, which aliases were used, and what no axis took.  No segment is dropped and none is counted
twice, for segments of any number and in any order.

A word of the context is never an alias of an intent, so a context once taken stays a context.
-/

namespace DesignTokens
namespace Naming

/-! ## Words and what they stand for -/

/-- A word stands for a value of an axis: by an alias of the table, or as the identifier of a value
that the axis lists. -/
def Stands {α : Type} (all : List α) (id : α → String) (aliases : List (String × α))
    (aliased : Bool) (word : String) (a : α) : Prop :=
  if aliased then (word, a) ∈ aliases else a ∈ all ∧ id a = word

section Stands

variable {α β : Type} {all : List α} {id : α → String} {aliases : List (String × α)}
  {aliased : Bool} {word : String} {a : α}

theorem stands_of_find? (h : (all.find? fun a => id a == word) = some a) :
    Stands all id aliases false word a := by
  have hword : id a = word := by simpa using List.find?_some h
  exact ⟨List.mem_of_find?_eq_some h, hword⟩

theorem stands_of_lookup (h : aliases.lookup word = some a) :
    Stands all id aliases true word a := by
  obtain ⟨before, after, htable, _⟩ := List.lookup_eq_some_iff.mp h
  have hmem : (word, a) ∈ aliases := by simp [htable]
  exact hmem

/-- A word that is found neither among the identifiers nor among the aliases stands for nothing. -/
theorem not_stands (hid : (all.find? fun a => id a == word) = none)
    (halias : aliases.lookup word = none) : ¬ Stands all id aliases aliased word a := by
  intro hstands
  cases aliased with
  | true =>
    have hmem : (word, a) ∈ aliases := hstands
    have hsome := Vocabulary.isSome_lookup.mpr (List.mem_map_of_mem (f := Prod.fst) hmem)
    simp [halias] at hsome
  | false =>
    obtain ⟨hlisted, hword⟩ : a ∈ all ∧ id a = word := hstands
    simpa [hword] using List.find?_eq_none.mp hid a hlisted

/-- What an axis makes of a word it is offered stands for the word, and the axis was free. -/
theorem stands_of_offer? {taken : Option β}
    (h : Tail.offer? taken (fun word => all.find? fun a => id a == word)
      (fun word => aliases.lookup word) word = some (a, aliased)) :
    taken = none ∧ Stands all id aliases aliased word a := by
  unfold Tail.offer? at h
  split at h
  · cases h
  · next hfree =>
    have hnone : taken = none := by simpa using hfree
    split at h
    · next hid =>
      cases h
      exact ⟨hnone, stands_of_find? hid⟩
    · rcases Option.map_eq_some_iff.mp h with ⟨_, halias, hpair⟩
      cases hpair
      exact ⟨hnone, stands_of_lookup halias⟩

/-- An axis that does not take a word is filled or does not know it. -/
theorem not_stands_of_offer? {taken : Option β}
    (h : Tail.offer? taken (fun word => all.find? fun a => id a == word)
      (fun word => aliases.lookup word) word = none) (hfree : taken = none) :
    ¬ Stands all id aliases aliased word a := by
  simp only [Tail.offer?, hfree, Option.isSome_none, Bool.false_eq_true, if_false] at h
  split at h
  · cases h
  · next hid => exact not_stands hid (Option.map_eq_none_iff.mp h)

end Stands

/-- The value that a scan gives to one of the four axes that it fills. -/
inductive Share where
  | context (value : UxContext)
  | intent (value : Intent)
  | modifier (value : Emphasis)
  | state (value : InteractionState)
  deriving DecidableEq, Repr

namespace Share

def axis : Share → Axis
  | context _ => .uxContext
  | intent _ => .intent
  | modifier _ => .modifier
  | state _ => .state

def id : Share → String
  | context value => value.id
  | intent value => value.id
  | modifier value => value.id
  | state value => value.id

/-- A word stands for the value on its axis; there are no aliases for modifiers. -/
def Names (word : String) (aliased : Bool) : Share → Prop
  | context value =>
    Stands UxContext.all UxContext.id Vocabulary.contextAliases aliased word value
  | intent value => Stands Intent.catalog Intent.id Vocabulary.intentAliases aliased word value
  | modifier value => Stands Emphasis.all Emphasis.id [] aliased word value
  | state value =>
    Stands InteractionState.all InteractionState.id Vocabulary.stateAliases aliased word value

def context? : Share → Option UxContext
  | context value => some value
  | _ => none

def intent? : Share → Option Intent
  | intent value => some value
  | _ => none

def modifier? : Share → Option Emphasis
  | modifier value => some value
  | _ => none

def state? : Share → Option InteractionState
  | state value => some value
  | _ => none

/-- The place of the axis among those that a word is offered to. -/
def rank : Share → Nat
  | context _ => 0
  | intent _ => 1
  | modifier _ => 2
  | state _ => 3

end Share

/-! ## Accounts -/

/-- A segment after the class with the value that it was taken for, if an axis took it, and
whether it was taken as an alias. -/
structure Part where
  word : String
  share : Option Share := none
  aliased : Bool := false
  deriving DecidableEq, Repr

namespace Part

def axis? (p : Part) : Option Axis := p.share.map Share.axis

/-- The alias use of a segment that was taken as an alias. -/
def uses (p : Part) : List AliasUse :=
  match p.share with
  | some s => Tail.used p.aliased s.axis p.word s.id
  | none => []

/-- The segment was taken for what it stands for on the first free axis that knows it, or no free
axis knows it and it was not taken. -/
def IsChoice (free : Axis → Prop) (p : Part) : Prop :=
  match p.share with
  | some s =>
    s.Names p.word p.aliased ∧ free s.axis ∧
      ∀ (s' : Share) (aliased : Bool), s'.Names p.word aliased → free s'.axis → s.rank ≤ s'.rank
  | none => ∀ (s' : Share) (aliased : Bool), s'.Names p.word aliased → ¬ free s'.axis

end Part

/-- No segment of a list was taken by the axis. -/
def Untaken (parts : List Part) (axis : Axis) : Prop := ∀ p ∈ parts, p.axis? ≠ some axis

/-- The first value of an axis that a segment of a list was taken for. -/
def given? {α : Type} (value? : Share → Option α) (parts : List Part) : Option α :=
  parts.findSome? fun p => p.share.bind value?

/-- What a scan makes of all segments of a path. -/
structure ScanAccount where
  skipped : List String
  -- The one or two segments of the class.
  classWords : List String
  classAliased : Bool
  parts : List Part

/-- The account of a reading: its segments are those of the path, each part is a choice among the
axes that the parts before it left free, and the reading reports what the account says. -/
structure ScanAccount.Of (a : ScanAccount) (segs : List String) (r : Reading) : Prop where
  segments_eq : segs = a.skipped ++ a.classWords ++ a.parts.map Part.word
  skipped_eq : r.skipped = a.skipped
  skipped_noClass : ∀ i < a.skipped.length, ¬ ClassAt segs i
  class_width : a.classWords.length = 1 ∨ a.classWords.length = 2
  class_stands : Stands PropertyClass.all PropertyClass.id Vocabulary.classAliases a.classAliased
    ("-".intercalate a.classWords) r.name.propertyClass
  parts_chosen : ∀ before p after, a.parts = before ++ p :: after → p.IsChoice (Untaken before)
  axes_once : (a.parts.filterMap Part.axis?).Nodup
  unrecognized_eq : r.unrecognized = (a.parts.filter fun p => p.share.isNone).map Part.word
  context_eq : r.name.context = given? Share.context? a.parts
  intent_eq : r.name.intent = (given? Share.intent? a.parts).getD .base
  modifier_eq : r.name.modifier = given? Share.modifier? a.parts
  state_eq : r.name.state = given? Share.state? a.parts
  aliases_eq : r.aliases =
    Tail.used a.classAliased .propertyClass ("-".intercalate a.classWords)
      r.name.propertyClass.id ++ a.parts.flatMap Part.uses

/-! ## One segment -/

namespace Share

theorem context?_eq_none_iff (s : Share) : s.context? = none ↔ s.axis ≠ .uxContext := by
  cases s <;> simp [context?, axis]

theorem intent?_eq_none_iff (s : Share) : s.intent? = none ↔ s.axis ≠ .intent := by
  cases s <;> simp [intent?, axis]

theorem modifier?_eq_none_iff (s : Share) : s.modifier? = none ↔ s.axis ≠ .modifier := by
  cases s <;> simp [modifier?, axis]

theorem state?_eq_none_iff (s : Share) : s.state? = none ↔ s.axis ≠ .state := by
  cases s <;> simp [state?, axis]

end Share

/-- No part was taken by an axis exactly if none gives it a value. -/
theorem untaken_iff {α : Type} {value? : Share → Option α} {axis : Axis} {parts : List Part}
    (hvalue : ∀ s, value? s = none ↔ s.axis ≠ axis) :
    Untaken parts axis ↔ given? value? parts = none := by
  simp only [Untaken, given?, Part.axis?, List.findSome?_eq_none_iff, Option.bind_eq_none_iff,
    hvalue]
  refine forall₂_congr fun p _ => ?_
  cases p.share <;> simp

theorem given?_concat {α : Type} (value? : Share → Option α) (parts : List Part) (p : Part) :
    given? value? (parts ++ [p]) = (given? value? parts).or (p.share.bind value?) := by
  simp [given?, List.findSome?_append]

/-- A word of the context is no alias of an intent. -/
theorem intentAlias?_of_context {aliased : Bool} {word : String} {value : UxContext}
    (h : (Share.context value).Names word aliased) : Vocabulary.intentAlias? word = none := by
  cases aliased with
  | true =>
    have hmem : (word, value) ∈ Vocabulary.contextAliases := h
    have hall : ∀ e ∈ Vocabulary.contextAliases, Vocabulary.intentAlias? e.1 = none := by decide
    exact hall _ hmem
  | false =>
    obtain ⟨_, rfl⟩ : value ∈ UxContext.all ∧ value.id = word := h
    cases value <;> rfl

namespace Tail

variable {t : Tail} {start : List AliasUse} {parts : List Part} {p : Part}

/-- The axis has no value yet. -/
def Free (t : Tail) : Axis → Prop
  | .propertyClass => True
  | .uxContext => t.context = none
  | .intent => t.intent = none
  | .modifier => t.modifier = none
  | .state => t.state = none

/-- The axes after a segment was taken, or left over. -/
def take (t : Tail) (p : Part) : Tail :=
  match p.share with
  | some (.context value) =>
    { t with context := some (value, p.word), aliases := t.aliases ++ p.uses }
  | some (.intent value) => { t with intent := some value, aliases := t.aliases ++ p.uses }
  | some (.modifier value) => { t with modifier := some value, aliases := t.aliases ++ p.uses }
  | some (.state value) => { t with state := some value, aliases := t.aliases ++ p.uses }
  | none => { t with unrecognized := t.unrecognized ++ [p.word] }

/-- No free axis before a place in their order knows the word. -/
def RefusedBefore (t : Tail) (word : String) (place : Nat) : Prop :=
  ∀ (s : Share) (aliased : Bool), s.rank < place → s.Names word aliased → ¬ t.Free s.axis

/-- What the first free axis makes of a word is a choice. -/
theorem RefusedBefore.isChoice {word : String} {s : Share} {aliased : Bool}
    (h : t.RefusedBefore word s.rank) (hnames : s.Names word aliased) (hfree : t.Free s.axis) :
    Part.IsChoice t.Free ⟨word, some s, aliased⟩ := by
  refine ⟨hnames, hfree, fun s' aliased' hnames' hfree' => ?_⟩
  exact Nat.le_of_not_lt fun hearlier => h s' aliased' hearlier hnames' hfree'

/-- One more axis refuses the word. -/
theorem RefusedBefore.succ {word : String} {place : Nat} (h : t.RefusedBefore word place)
    (hnext : ∀ (s : Share) (aliased : Bool), s.rank = place → s.Names word aliased →
      ¬ t.Free s.axis) : t.RefusedBefore word (place + 1) := by
  intro s aliased hrank hnames
  rcases Nat.lt_succ_iff_lt_or_eq.mp hrank with hlt | heq
  · exact h s aliased hlt hnames
  · exact hnext s aliased heq hnames

/-- Reading a segment takes it for what the first free axis makes of it. -/
theorem exists_take (t : Tail) (word : String) :
    ∃ p : Part, p.word = word ∧ t.read word = t.take p ∧ p.IsChoice t.Free := by
  have hfirst : t.RefusedBefore word 0 := fun s _ hrank => absurd hrank (Nat.not_lt_zero s.rank)
  unfold read
  split
  · next value aliased hoffer =>
    obtain ⟨hfree, hnames⟩ : t.context = none ∧ (Share.context value).Names word aliased :=
      stands_of_offer? hoffer
    exact ⟨⟨word, some (.context value), aliased⟩, rfl, rfl, hfirst.isChoice hnames hfree⟩
  · next hcontext =>
    have hsecond : t.RefusedBefore word 1 := hfirst.succ fun s _ hrank hnames hfree => by
      cases s with
      | context value => exact not_stands_of_offer? hcontext hfree hnames
      | _ => cases hrank
    split
    · next value aliased hoffer =>
      obtain ⟨hfree, hnames⟩ : t.intent = none ∧ (Share.intent value).Names word aliased :=
        stands_of_offer? hoffer
      exact ⟨⟨word, some (.intent value), aliased⟩, rfl, rfl, hsecond.isChoice hnames hfree⟩
    · next hintent =>
      have hthird : t.RefusedBefore word 2 := hsecond.succ fun s _ hrank hnames hfree => by
        cases s with
        | intent value => exact not_stands_of_offer? hintent hfree hnames
        | _ => cases hrank
      split
      · next value aliased hoffer =>
        obtain ⟨hfree, hnames⟩ : t.modifier = none ∧ (Share.modifier value).Names word aliased :=
          stands_of_offer? hoffer
        cases aliased with
        | true => cases hnames
        | false =>
          refine ⟨⟨word, some (.modifier value), false⟩, rfl, ?_, hthird.isChoice hnames hfree⟩
          simp [take, Part.uses, used]
      · next hmodifier =>
        have hfourth : t.RefusedBefore word 3 := hthird.succ fun s _ hrank hnames hfree => by
          cases s with
          | modifier value => exact not_stands_of_offer? hmodifier hfree hnames
          | _ => cases hrank
        split
        · next value aliased hoffer =>
          obtain ⟨hfree, hnames⟩ : t.state = none ∧ (Share.state value).Names word aliased :=
            stands_of_offer? hoffer
          exact ⟨⟨word, some (.state value), aliased⟩, rfl, rfl, hfourth.isChoice hnames hfree⟩
        · next hstate =>
          have hall : t.RefusedBefore word 4 := hfourth.succ fun s _ hrank hnames hfree => by
            cases s with
            | state value => exact not_stands_of_offer? hstate hfree hnames
            | _ => cases hrank
          refine ⟨⟨word, none, false⟩, rfl, rfl, fun s aliased => ?_⟩
          exact hall s aliased (by cases s <;> simp [Share.rank])

/-! ## All segments after the class -/

/-- The axes during a scan are what the parts read so far say. -/
structure Accounts (t : Tail) (start : List AliasUse) (parts : List Part) : Prop where
  chosen : ∀ before p after, parts = before ++ p :: after → p.IsChoice (Untaken before)
  once : (parts.filterMap Part.axis?).Nodup
  context_eq : t.context.map Prod.fst = given? Share.context? parts
  contextWord : ∀ c, t.context = some c → Vocabulary.intentAlias? c.2 = none
  intent_eq : t.intent = given? Share.intent? parts
  modifier_eq : t.modifier = given? Share.modifier? parts
  state_eq : t.state = given? Share.state? parts
  unrecognized_eq : t.unrecognized = (parts.filter fun p => p.share.isNone).map Part.word
  aliases_eq : t.aliases = start ++ parts.flatMap Part.uses

theorem accounts_nil (start : List AliasUse) : Accounts { aliases := start } start [] where
  chosen before p after h := by simp at h
  once := List.nodup_nil
  context_eq := rfl
  contextWord c h := by cases h
  intent_eq := rfl
  modifier_eq := rfl
  state_eq := rfl
  unrecognized_eq := rfl
  aliases_eq := by simp

/-- An axis is free exactly if it took none of the parts. -/
theorem Accounts.free_eq (h : t.Accounts start parts) : t.Free = Untaken parts := by
  funext axis
  refine propext ?_
  cases axis with
  | propertyClass =>
    refine iff_of_true trivial fun p _ => ?_
    rcases p with ⟨_, _ | share, _⟩
    · simp [Part.axis?]
    · cases share <;> simp [Part.axis?, Share.axis]
  | uxContext =>
    rw [untaken_iff Share.context?_eq_none_iff, ← h.context_eq, Option.map_eq_none_iff]
    rfl
  | intent =>
    rw [untaken_iff Share.intent?_eq_none_iff, ← h.intent_eq]
    rfl
  | modifier =>
    rw [untaken_iff Share.modifier?_eq_none_iff, ← h.modifier_eq]
    rfl
  | state =>
    rw [untaken_iff Share.state?_eq_none_iff, ← h.state_eq]
    rfl

/-! ### One more segment -/

theorem free_of_choice {share : Share} (hp : p.IsChoice t.Free) (hshare : p.share = some share) :
    t.Free share.axis := by
  unfold Part.IsChoice at hp
  rw [hshare] at hp
  exact hp.2.1

theorem context_take (hp : p.IsChoice t.Free) : (t.take p).context.map Prod.fst =
    (t.context.map Prod.fst).or (p.share.bind Share.context?) := by
  cases hshare : p.share with
  | none => simp [take, hshare]
  | some share =>
    have hfree := free_of_choice hp hshare
    cases share <;> simp_all [take, Free, Share.axis, Share.context?]

theorem intent_take (hp : p.IsChoice t.Free) :
    (t.take p).intent = t.intent.or (p.share.bind Share.intent?) := by
  cases hshare : p.share with
  | none => simp [take, hshare]
  | some share =>
    have hfree := free_of_choice hp hshare
    cases share <;> simp_all [take, Free, Share.axis, Share.intent?]

theorem modifier_take (hp : p.IsChoice t.Free) :
    (t.take p).modifier = t.modifier.or (p.share.bind Share.modifier?) := by
  cases hshare : p.share with
  | none => simp [take, hshare]
  | some share =>
    have hfree := free_of_choice hp hshare
    cases share <;> simp_all [take, Free, Share.axis, Share.modifier?]

theorem state_take (hp : p.IsChoice t.Free) :
    (t.take p).state = t.state.or (p.share.bind Share.state?) := by
  cases hshare : p.share with
  | none => simp [take, hshare]
  | some share =>
    have hfree := free_of_choice hp hshare
    cases share <;> simp_all [take, Free, Share.axis, Share.state?]

theorem unrecognized_take (t : Tail) (p : Part) : (t.take p).unrecognized =
    t.unrecognized ++ ([p].filter fun p => p.share.isNone).map Part.word := by
  cases hshare : p.share with
  | none => simp [take, hshare]
  | some share => cases share <;> simp [take, hshare]

theorem aliases_take (t : Tail) (p : Part) : (t.take p).aliases = t.aliases ++ p.uses := by
  cases hshare : p.share with
  | none => simp [take, hshare, Part.uses]
  | some share => cases share <;> simp [take, hshare]

/-- Whatever segment fills the context, its word is no alias of an intent. -/
theorem contextWord_take (h : ∀ c, t.context = some c → Vocabulary.intentAlias? c.2 = none)
    (hp : p.IsChoice t.Free) :
    ∀ c, (t.take p).context = some c → Vocabulary.intentAlias? c.2 = none := by
  intro c hc
  cases hshare : p.share with
  | none => exact h c (by simpa [take, hshare] using hc)
  | some share =>
    cases share with
    | context value =>
      unfold Part.IsChoice at hp
      rw [hshare] at hp
      have hword : (value, p.word) = c := by simpa [take, hshare] using hc
      rw [← hword]
      exact intentAlias?_of_context hp.1
    | _ => exact h c (by simpa [take, hshare] using hc)

/-- One more segment is accounted for. -/
theorem Accounts.take (h : t.Accounts start parts) (hp : p.IsChoice t.Free) :
    (t.take p).Accounts start (parts ++ [p]) where
  chosen before q after heq := by
    rcases List.eq_nil_or_concat after with rfl | ⟨after, last, rfl⟩
    · obtain ⟨rfl, hlast⟩ := List.append_inj' heq rfl
      cases hlast
      exact h.free_eq ▸ hp
    · rw [List.concat_eq_append, ← List.cons_append, ← List.append_assoc] at heq
      exact h.chosen before q after (List.append_inj' heq rfl).1
  once := by
    rw [List.filterMap_append, List.nodup_append]
    cases hshare : p.share with
    | none => exact ⟨h.once, by simp [Part.axis?, hshare], by simp [Part.axis?, hshare]⟩
    | some share =>
      have huntaken : Untaken parts share.axis := h.free_eq ▸ free_of_choice hp hshare
      refine ⟨h.once, by simp [Part.axis?, hshare], fun axis haxis axis' haxis' => ?_⟩
      have hlast : axis' = share.axis := by simpa [Part.axis?, hshare] using haxis'
      obtain ⟨q, hq, hqaxis⟩ := List.mem_filterMap.mp haxis
      rintro rfl
      exact huntaken q hq (hlast ▸ hqaxis)
  context_eq := by rw [context_take hp, h.context_eq, given?_concat]
  contextWord := contextWord_take h.contextWord hp
  intent_eq := by rw [intent_take hp, h.intent_eq, given?_concat]
  modifier_eq := by rw [modifier_take hp, h.modifier_eq, given?_concat]
  state_eq := by rw [state_take hp, h.state_eq, given?_concat]
  unrecognized_eq := by
    rw [unrecognized_take, h.unrecognized_eq, List.filter_append, List.map_append]
  aliases_eq := by simp [aliases_take, h.aliases_eq]

/-- All further segments are accounted for. -/
theorem Accounts.foldl (h : t.Accounts start parts) (words : List String) :
    ∃ more : List Part, more.map Part.word = words ∧
      (words.foldl Tail.read t).Accounts start (parts ++ more) := by
  induction words generalizing t parts with
  | nil => exact ⟨[], rfl, by simpa using h⟩
  | cons word words ih =>
    obtain ⟨p, hword, hread, hp⟩ := t.exists_take word
    obtain ⟨more, hmore, haccounts⟩ := ih (h.take hp)
    refine ⟨p :: more, by simp [hword, hmore], ?_⟩
    rw [List.foldl_cons, hread]
    simpa using haccounts

/-- A context that was taken stays one, and without an intent the intent is the base one. -/
theorem Accounts.contextAndIntent (h : t.Accounts start parts) :
    t.contextAndIntent =
      (given? Share.context? parts, (given? Share.intent? parts).getD .base) := by
  have hkept : (t.context.bind fun c => Vocabulary.intentAlias? c.2) = none :=
    Option.bind_eq_none_iff.mpr h.contextWord
  unfold Tail.contextAndIntent
  rw [← h.context_eq, ← h.intent_eq, hkept]
  cases t.intent <;> rfl

end Tail

/-! ## The class -/

variable {segs skipped : List String} {hit : ClassHit}

/-- The class that is found at the head of some segments is spelled by the first or the first two
of them. -/
theorem exists_classWords (h : hitAhead? segs = some hit) :
    ∃ (words : List String) (aliased : Bool), segs = words ++ hit.rest ∧
      (words.length = 1 ∨ words.length = 2) ∧
      Stands PropertyClass.all PropertyClass.id Vocabulary.classAliases aliased
        ("-".intercalate words) hit.propertyClass ∧
      hit.aliases =
        Tail.used aliased .propertyClass ("-".intercalate words) hit.propertyClass.id := by
  unfold hitAhead? at h
  split at h
  · next c rest hclass =>
    cases h
    unfold classAhead? at hclass
    split at hclass
    · cases hclass
    · next word =>
      rcases Option.map_eq_some_iff.mp hclass with ⟨c', hid, hpair⟩
      cases hpair
      exact ⟨[word], false, rfl, .inl rfl, stands_of_find? hid, rfl⟩
    · next word next rest' =>
      split at hclass
      · next c' hid =>
        cases hclass
        exact ⟨[word, next], false, rfl, .inr rfl, stands_of_find? hid, rfl⟩
      · rcases Option.map_eq_some_iff.mp hclass with ⟨c', hid, hpair⟩
        cases hpair
        exact ⟨[word], false, rfl, .inl rfl, stands_of_find? hid, rfl⟩
  · next hnone =>
    clear hnone
    unfold aliasAhead? at h
    split at h
    · cases h
    · next word =>
      rcases Option.map_eq_some_iff.mp h with ⟨c, halias, rfl⟩
      exact ⟨[word], true, rfl, .inl rfl, stands_of_lookup halias, rfl⟩
    · next word next rest' =>
      split at h
      · next c halias =>
        cases h
        exact ⟨[word, next], true, rfl, .inr rfl, stands_of_lookup halias, rfl⟩
      · rcases Option.map_eq_some_iff.mp h with ⟨c, halias, rfl⟩
        exact ⟨[word], true, rfl, .inl rfl, stands_of_lookup halias, rfl⟩

/-- The scan finds the first class: it is at the head of what follows the skipped segments, and
none of these spells one. -/
theorem firstHit?_eq_some (h : firstHit? segs = some (skipped, hit)) :
    ∃ rest, segs = skipped ++ rest ∧ hitAhead? rest = some hit ∧
      ∀ i < skipped.length, ¬ ClassAt segs i := by
  induction segs generalizing skipped with
  | nil => simp [firstHit?] at h
  | cons word rest ih =>
    unfold firstHit? at h
    split at h
    · next hit' hhit =>
      cases h
      exact ⟨word :: rest, rfl, hhit, fun i hi => absurd hi (Nat.not_lt_zero i)⟩
    · next hnone =>
      obtain ⟨⟨before, hit'⟩, hfirst, hpair⟩ := Option.map_eq_some_iff.mp h
      cases hpair
      obtain ⟨rest', rfl, hhit, hbefore⟩ := ih hfirst
      refine ⟨rest', rfl, hhit, fun i hi => ?_⟩
      cases i with
      | zero =>
        rw [← isSome_hitAhead?, hnone]
        simp
      | succ i => exact hbefore i (Nat.lt_of_succ_lt_succ hi)

/-! ## The whole scan -/

theorem exists_account {r : Reading} (h : readScan? segs = some r) :
    ∃ a : ScanAccount, a.Of segs r := by
  unfold readScan? at h
  split at h
  · cases h
  · next skipped hit hfirst =>
    obtain ⟨rest, rfl, hhit, hskipped⟩ := firstHit?_eq_some hfirst
    obtain ⟨words, aliased, rfl, hwidth, hstands, huses⟩ := exists_classWords hhit
    obtain ⟨parts, hwords, haccounts⟩ := (Tail.accounts_nil hit.aliases).foldl hit.rest
    rw [List.nil_append] at haccounts
    cases h
    refine ⟨⟨skipped, words, aliased, parts⟩, ?_⟩
    exact
      { segments_eq := by simp [hwords]
        skipped_eq := rfl
        skipped_noClass := hskipped
        class_width := hwidth
        class_stands := hstands
        parts_chosen := haccounts.chosen
        axes_once := haccounts.once
        unrecognized_eq := haccounts.unrecognized_eq
        context_eq := congrArg Prod.fst haccounts.contextAndIntent
        intent_eq := congrArg Prod.snd haccounts.contextAndIntent
        modifier_eq := haccounts.modifier_eq
        state_eq := haccounts.state_eq
        aliases_eq := huses ▸ haccounts.aliases_eq }

/-- A scan accounts for every segment of its path in small letters. -/
theorem scan_accounts_for_every_segment {path : String} {r : Reading} (hr : read? path = some r)
    (hscan : r.strategy = .scan) :
    ∃ a : ScanAccount, a.Of ((segments path).map Text.lower) r := by
  unfold read? at hr
  split at hr
  · cases hr
    cases hscan
  · dsimp only at hr
    split at hr
    · next r' hfirst =>
      cases hr
      unfold readFirstSegment? at hfirst
      split at hfirst
      · cases hfirst
      · rcases Option.map_eq_some_iff.mp hfirst with ⟨_, _, rfl⟩
        cases hscan
    · exact exists_account hr

/-- A prefix, a class of two segments by alias, two words for each of three axes, and a word that
no axis knows. -/
theorem scan_accounts_for_every_segment_crowdedPath :
    ∃ (r : Reading) (a : ScanAccount),
      read? "Acme.focus-RING.brand.btn.primary.default/default.blue.hovered" = some r ∧
      r.strategy = .scan ∧ r.skipped = ["acme"] ∧
      r.unrecognized = ["primary", "blue", "hovered"] ∧
      r.aliases.map AliasUse.word = ["focus-ring", "brand", "btn"] ∧
      a.Of ["acme", "focus", "ring", "brand", "btn", "primary", "default", "default", "blue",
        "hovered"] r := by
  let path := "Acme.focus-RING.brand.btn.primary.default/default.blue.hovered"
  have hfacts : (read? path).any (fun r => r.strategy = .scan && r.skipped = ["acme"] &&
      r.unrecognized = ["primary", "blue", "hovered"] &&
      r.aliases.map AliasUse.word = ["focus-ring", "brand", "btn"]) = true := by decide +kernel
  have hsegs : (segments path).map Text.lower = ["acme", "focus", "ring", "brand", "btn",
      "primary", "default", "default", "blue", "hovered"] := by decide +kernel
  obtain ⟨r, hr, hfacts⟩ := (Option.any_eq_true _ _).mp hfacts
  simp only [Bool.and_eq_true, decide_eq_true_eq] at hfacts
  obtain ⟨⟨⟨hscan, hskipped⟩, hunrecognized⟩, haliases⟩ := hfacts
  obtain ⟨a, ha⟩ := scan_accounts_for_every_segment hr hscan
  exact ⟨r, a, hr, hscan, hskipped, hunrecognized, haliases, hsegs ▸ ha⟩

end Naming
end DesignTokens
