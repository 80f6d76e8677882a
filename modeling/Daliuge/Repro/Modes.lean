import Mathlib.Data.List.Basic

/-! The reproducibility modes and the texts they are written as. -/
namespace Daliuge.Repro

/-- `ReproducibilityFlags`. -/
inductive Mode
  | all | nothing | rerun | repeat_ | recompute | reproduce
  | replicateSci | replicateComp | replicateTotal | experimental
  deriving DecidableEq, Repr

namespace Mode

def value : Mode → Int
  | all => -1
  | nothing => 0
  | rerun => 1
  | repeat_ => 2
  | recompute => 4
  | reproduce => 5
  | replicateSci => 6
  | replicateComp => 7
  | replicateTotal => 8
  | experimental => 9

def name : Mode → String
  | all => "ALL"
  | nothing => "NOTHING"
  | rerun => "RERUN"
  | repeat_ => "REPEAT"
  | recompute => "RECOMPUTE"
  | reproduce => "REPRODUCE"
  | replicateSci => "REPLICATE_SCI"
  | replicateComp => "REPLICATE_COMP"
  | replicateTotal => "REPLICATE_TOTAL"
  | experimental => "EXPERIMENTAL"

end Mode

/-- `ALL_RMODES`. -/
def allRmodes : List Mode :=
  [.rerun, .repeat_, .recompute, .reproduce, .replicateSci, .replicateComp, .replicateTotal]

/-- `REPRO_DEFAULT`. -/
def reproDefault : Mode := .nothing

/-- The modes a level stands for: all of them, or the one. -/
def candidateRmodes (level : Mode) : List Mode :=
  if level = .all then allRmodes else [level]

end Daliuge.Repro
