import ChartParsing.Proofs.Tree.Relabel

/-!
# Trees of one shape

Two forests are *aligned* if they have the same words in the same places and the labels
of their inner nodes are related pair by pair.  In aligned trees the two roots may be
related differently from the nodes below them, as annotation treats a root differently.

An alignment is followed by induction on itself: a forest starts with a word or with an
inner node, and the trees below that node are aligned just like the trees after it.
-/

namespace ChartParsing

/-- Forests that differ in the labels of inner nodes only, which are related. -/
inductive Forest.Aligned (Related : String → String → Prop) :
    Forest String → Forest String → Prop
  | nil : Aligned Related [] []
  | word (word : String) {rest others : Forest String}
      (later : Aligned Related rest others) :
      Aligned Related (.node word [] :: rest) (.node word [] :: others)
  | inner {label other : String} {children below rest others : Forest String}
      (related : Related label other) (nonempty : children ≠ [])
      (inside : Aligned Related children below) (later : Aligned Related rest others) :
      Aligned Related (.node label children :: rest) (.node other below :: others)

/-- Trees that differ in the labels of inner nodes only, which are related. -/
inductive Tree.Aligned (Root Related : String → String → Prop) :
    Tree String → Tree String → Prop
  | word (word : String) : Aligned Root Related (.node word []) (.node word [])
  | inner {label other : String} {children below : Forest String}
      (related : Root label other) (nonempty : children ≠ [])
      (inside : Forest.Aligned Related children below) :
      Aligned Root Related (.node label children) (.node other below)

variable {Root Related : String → String → Prop} {look : String → String}

namespace Forest.Aligned

variable {forest others : Forest String}

theorem ne_nil (aligned : Aligned Related forest others) (nonempty : forest ≠ []) :
    others ≠ [] := by
  cases aligned with
  | nil => contradiction
  | word | inner => exact List.cons_ne_nil _ _

/-- A renaming that leads from each label back to its partner leads back from the whole
forest. -/
theorem relabel_eq (back : ∀ label other, Related label other → look other = label)
    (aligned : Aligned Related forest others) : Forest.relabel look others = forest := by
  induction aligned with
  | nil => rfl
  | word word later laterBack => rw [Forest.relabel, Tree.relabel, laterBack]
  | inner related nonempty inside later insideBack laterBack =>
      rw [Forest.relabel, Tree.relabel_node _ (inside.ne_nil nonempty), back _ _ related,
        insideBack, laterBack]

end Forest.Aligned

/-- A renaming that leads from each label back to its partner leads back from the whole
tree. -/
theorem Tree.Aligned.relabel_eq
    (rootBack : ∀ label other, Root label other → look other = label)
    (back : ∀ label other, Related label other → look other = label)
    {tree other : Tree String} (aligned : Tree.Aligned Root Related tree other) :
    other.relabel look = tree := by
  cases aligned with
  | word => rfl
  | inner related nonempty inside =>
      rw [Tree.relabel_node _ (inside.ne_nil nonempty), rootBack _ _ related,
        inside.relabel_eq back]

end ChartParsing
