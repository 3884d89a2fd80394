import ChartParsing.Parser.Error
import ChartParsing.Score.Binary64

/-!
# Parser configuration

How far the coarse model prunes the chart of the fine one, and how long a
sentence may be and how much work it may take.
-/

namespace ChartParsing

/-- Whether the coarse model prunes the fine chart. -/
inductive Pruning (σ : Type) where
  /-- Leave out what has a coarse posterior below a threshold. -/
  | below (threshold : σ)
  /-- Fill the whole fine chart; the coarse model is not used. -/
  | disabled
  deriving Repr

/-- How a parser goes about its work. -/
structure Config (σ : Type) where
  pruning : Pruning σ
  /-- The longest sentence that is not refused. -/
  maxLength : Option Nat := none
  /-- The most edges that may be examined for one sentence. -/
  maxEdges : Option Nat := none
  deriving Repr

/-- Prune below a posterior of `-2`, without limits. -/
def Config.standard : Config Float where
  pruning := .below (-2.0)

namespace Config

variable {σ : Type}

/-- Charge `edges` more to a sentence on which `spent` have been spent. -/
def charge (config : Config σ) (spent edges : Nat) : Except (ParseError σ) Nat :=
  let total := spent + edges
  match config.maxEdges with
  | some max => if max < total then .error (.budgetExhausted max) else .ok total
  | none => .ok total

/-- Refuse a sentence that is longer than allowed. -/
def checkLength (config : Config σ) (length : Nat) :
    Except (ParseError σ) Unit :=
  match config.maxLength with
  | some max =>
      if max < length then .error (.sentenceTooLong length max) else .ok ()
  | none => .ok ()

end Config

end ChartParsing
