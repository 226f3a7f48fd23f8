/-!
# Lists of texts without repeats

Texts are ordered by code points, which is also the order of their UTF-8 bytes.
-/

namespace DesignTokens.Text

/-- The members of a list, each at its first place only. -/
def firsts {α : Type} [BEq α] (items : List α) : List α :=
  items.foldl (fun seen a => if seen.contains a then seen else seen ++ [a]) []

/-- The members of a list in increasing order, each once. -/
def sorted (texts : List String) : List String :=
  (firsts texts).mergeSort fun a b => decide (a ≤ b)

/-- How often each text occurs, by increasing text. -/
def histogram (texts : List String) : List (String × Nat) :=
  (sorted texts).map fun t => (t, texts.count t)

/-- The items of a list grouped by a key made of texts, by increasing key.  Inside a group the
items keep their order. -/
def groupBy {β : Type} (key : β → List String) (items : List β) : List (List String × List β) :=
  let keys := (firsts (items.map key)).mergeSort fun a b => !decide (b < a)
  keys.map fun k => (k, items.filter fun b => key b == k)

end DesignTokens.Text
