import ChartParsing.Grammar.Declaration

/-!
# Projecting a grammar

Renaming the labels of a grammar may make several of them one, and with them
several rules.  A projected rule keeps the best score among the rules that it
stands for, so no derivation scores better before the projection than after it.
-/

namespace ChartParsing.Grammar

variable {σ : Type}

/-- The declarations of a grammar after renaming: its labels in order, then its
binary rules, then its unary rules. -/
def renamedDeclarations (grammar : Grammar σ) (rename : String → String) :
    List (Declaration σ) :=
  let name (id : LabelId) := rename (grammar.labels.name id)
  grammar.labels.names.map (fun label => .label (rename label)) ++
    grammar.binary.map (fun rule =>
      .binary (name rule.parent) (name rule.left) (name rule.right) rule.score) ++
    grammar.unary.map (fun rule =>
      .unary (name rule.parent) (name rule.child) rule.score)

/-- Rename every label of a grammar. -/
def project [Score σ] (grammar : Grammar σ) (rename : String → String) :
    Except (ModelError σ) (Grammar σ) :=
  declare (rename grammar.rootName) (grammar.renamedDeclarations rename)

end ChartParsing.Grammar
