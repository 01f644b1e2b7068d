import BlockScope.Analysis.Capture
import BlockScope.Analysis.Inheritance
import BlockScope.Analysis.Resolution
/-!
# Analysing a program

All stages one after the other. Every name of the whole program is resolved before any closure is
converted, since only then is it known which variables are used remotely.
-/
namespace BlockScope

/-- Every stage in turn, from a fresh analysis. -/
def analysisStages (p : Program) : Stage Unit := do
  Stage.tell [.globalNames]
  register p
  link p
  Stage.tell [.semantics]
  resolve p
  Stage.tell [.closures]
  convert p

/-- The analysis of a program or its first error, and the journal of either. -/
def Program.analyzeTelling (p : Program) : Except AnalysisError Analysis × List Entry :=
  let (result, work) := (analysisStages p).runOn .fresh
  (result.map fun _ => work.analysis, work.journal.toList)

/-- The analysis of a program, or its first error. -/
def Program.analyze (p : Program) : Except AnalysisError Analysis := p.analyzeTelling.1

end BlockScope
