import ChartParsing.Grammar.Projection
import ChartParsing.Lexicon.Table
import ChartParsing.Parser.Basic
import ChartParsing.Score.Exact

/-!
# Sample data

A handful of trees, and a small grammar and lexicon over the fine labels of such
trees, for trying the parser out.  A smaller grammar has exact scores, a cycle of
unary rules and two labels that their coarse label does not tell apart.  Numbers
written in strokes give any number of further labels.
-/

namespace ChartParsing.Sample

/-- A few trees in bracketed form, one a line. -/
def treebank : String :=
  "\n".intercalate
    ["(ROOT (S (NP (DT the) (NN dog)) (VP (VBZ barks)) (. .)))",
      "(ROOT (S (NP (DT the) (JJ big) (NN dog)) (VP (VBD chased) (NP (DT a) (NN cat)))))",
      "(ROOT (S (NP (NNP Vice) (NNP President)) (VP (VBD resigned) (ADVP (RB yesterday)))))",
      "(ROOT (NP (NN Odds)))",
      "(ROOT (S (NP (PRP it)) (VP (VBD saw) (NP (DT the) (NN man)) (PP (IN with) (NP (DT a) (NN telescope))))))",
      "(ROOT (S (ADVP (RB now)) (NP (PRP we)) (VP (VBP go))))"]

/-- Binary rules: parent, left child, right child and score. -/
def binaryRules : List (String × String × String × Float) :=
  [("S^ROOT", "NP^S^ROOT", "@S->_NP", -0.4),
    ("S^ROOT", "NP^S^ROOT-U", "@S->_NP", -1.1),
    ("NP^S^ROOT", "DT^NP^S", "@NP->_DT", 0.0),
    ("@NP->_DT", "JJ^NP^S", "@NP->_DT_JJ", -1.4),
    ("VP^S^ROOT", "VBD^VP^S", "@VP->_VBD", 0.0),
    ("@VP->_VBD", "NP^VP^S", "@VP->_VBD_NP", -0.9),
    ("NP^VP^S", "DT^NP^VP", "@NP->_DT", -0.2),
    ("NP^VP^S", "NP^NP^VP", "@NP->_NP", -1.7),
    ("NP^NP^VP", "DT^NP^NP", "@NP->_DT", 0.0),
    ("PP^VP^S", "IN^PP^VP", "@PP->_IN", 0.0),
    ("PP^NP^VP", "IN^PP^NP", "@PP->_IN", 0.0),
    ("NP^PP^VP", "DT^NP^PP", "@NP->_DT", 0.0),
    ("NP^PP^NP", "DT^NP^PP", "@NP->_DT", 0.0)]

/-- Unary rules: parent, child and score. -/
def unaryRules : List (String × String × Float) :=
  [("ROOT", "S^ROOT", 0.0),
    ("NP^S^ROOT-U", "PRP^NP^S", 0.0),
    ("@NP->_DT", "NN^NP^S", -0.3),
    ("@NP->_DT", "NN^NP^VP", -0.3),
    ("@NP->_DT", "NN^NP^PP", -1.5),
    ("@NP->_DT", "NN^NP^NP", -1.5),
    ("@NP->_DT_JJ", "NN^NP^S", 0.0),
    ("@S->_NP", "VP^S^ROOT-U", -0.7),
    ("@S->_NP", "VP^S^ROOT", -0.7),
    ("VP^S^ROOT-U", "VBZ^VP^S", 0.0),
    ("@VP->_VBD", "NP^VP^S", -0.5),
    ("@VP->_VBD_NP", "PP^VP^S", 0.0),
    ("@NP->_NP", "PP^NP^VP", 0.0),
    ("@PP->_IN", "NP^PP^VP", -0.7),
    ("@PP->_IN", "NP^PP^NP", -0.7)]

/-- Words, tags and scores. -/
def taggings : List (String × String × Float) :=
  [("the", "DT^NP^S", -0.5),
    ("the", "DT^NP^VP", -0.6),
    ("the", "DT^NP^PP", -0.7),
    ("the", "DT^NP^NP", -0.8),
    ("a", "DT^NP^S", -1.2),
    ("a", "DT^NP^VP", -0.9),
    ("a", "DT^NP^PP", -0.7),
    ("a", "DT^NP^NP", -1.0),
    ("big", "JJ^NP^S", -2.5),
    ("dog", "NN^NP^S", -2.0),
    ("dog", "NN^NP^VP", -2.6),
    ("cat", "NN^NP^S", -2.7),
    ("cat", "NN^NP^VP", -2.2),
    ("man", "NN^NP^S", -2.4),
    ("man", "NN^NP^VP", -2.1),
    ("man", "NN^NP^NP", -2.3),
    ("telescope", "NN^NP^PP", -3.0),
    ("telescope", "NN^NP^VP", -3.4),
    ("barks", "VBZ^VP^S", -1.0),
    ("chased", "VBD^VP^S", -1.8),
    ("saw", "VBD^VP^S", -1.5),
    ("it", "PRP^NP^S", -1.0),
    ("with", "IN^PP^VP", -0.4),
    ("with", "IN^PP^NP", -0.6)]

/-- The sample rules and tags as declarations, under the root category. -/
def declarations : List (Declaration Float) :=
  binaryRules.map (fun (parent, left, right, score) =>
      .binary parent left right score) ++
    unaryRules.map (fun (parent, child, score) => .unary parent child score) ++
    taggings.map (fun (_, tag, _) => .label tag)

/-- The grammar of the sample rules. -/
def grammar : Except (ModelError Float) (Grammar Float) :=
  Grammar.declare "ROOT" declarations

/-- The lexicon of the sample taggings. -/
def lexicon : Except (ModelError Float) (TableLexicon Float) :=
  TableLexicon.ofEntries (taggings.map fun (word, tag, score) => ((word, tag), score))

/-- The parser whose fine model has the sample grammar and lexicon and whose
coarse model has their projections onto coarse labels. -/
def parser (config : Config Float) :
    Except (ModelError Float) (Parser Float) := do
  let grammar ← grammar
  let lexicon ← lexicon
  let coarseGrammar ← grammar.project Refinement.coarseLabel
  let coarseLexicon := lexicon.project Refinement.coarseLabel
  let coarse ← Model.ofGrammar coarseGrammar coarseLexicon.score
  let fine ← Model.ofGrammar grammar lexicon.score
  Parser.ofModels coarse fine Refinement.coarseLabel config

/-! ## Many labels -/

/-- A number in strokes, where zero has one. -/
def strokes (number : Nat) : String :=
  String.ofList (List.replicate (number + 1) 'I')

theorem strokes_inj {first second : Nat} (same : strokes first = strokes second) :
    first = second := by
  have lengths := congrArg List.length (String.ofList_injective same)
  rw [List.length_replicate, List.length_replicate] at lengths
  exact Nat.succ.inj lengths

/-! ## Exact scores -/

namespace Exact

/-- Rules with exact scores. -/
def declarations : List (Declaration ExactScore) :=
  [.unary "ROOT" "S^ROOT" (.finite (mkRat 0 1)),
    .binary "S^ROOT" "NP^S" "VP^S" (.finite (mkRat (-1) 2)),
    .unary "NP^S" "N^NP" (.finite (mkRat (-1) 4)),
    .unary "N^NP" "NP^S" (.finite (mkRat (-1) 1)),
    .unary "VP^S" "VP^VP" (.finite (mkRat (-1) 8)),
    .unary "VP^VP" "V^VP" (.finite (mkRat (-1) 3))]

/-- Words, tags and exact scores. -/
def taggings : List ((String × String) × ExactScore) :=
  [(("dogs", "N^NP"), .finite (mkRat (-1) 1)),
    (("bark", "N^NP"), .finite (mkRat (-3) 1)),
    (("bark", "V^VP"), .finite (mkRat (-3) 2))]

/-- The grammar of the rules with exact scores. -/
def grammar : Grammar ExactScore :=
  .merge "ROOT" declarations

/-- The grammar over coarse labels. -/
def coarseGrammar : Grammar ExactScore :=
  .merge (Refinement.coarseLabel grammar.rootName)
    (grammar.renamedDeclarations Refinement.coarseLabel)

/-- The lexicon of the taggings with exact scores. -/
def lexicon : TableLexicon ExactScore :=
  ⟨.ofList taggings, .empty⟩

/-- The model over fine labels. -/
def fine : Model ExactScore :=
  (Model.ofGrammar grammar lexicon.score).toOption.get (by decide +kernel)

/-- The model over coarse labels. -/
def coarse : Model ExactScore :=
  (Model.ofGrammar coarseGrammar (lexicon.project Refinement.coarseLabel).score).toOption.get
    (by decide +kernel)

/-- The parser of the two models. -/
def parser (config : Config ExactScore) : Parser ExactScore :=
  ⟨coarse, fine, #[0, 1, 2, 3, 4, 3, 5], config⟩

end Exact

end ChartParsing.Sample
