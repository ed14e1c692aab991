import Reactivity.Program.Eval

namespace Reactivity

/-- What is seen of one step. -/
structure StepReport where
  /-- The result, or what the step was interrupted by. -/
  outcome : Except Interrupt Result
  /-- What was logged during the step, in order. -/
  log : List Result
  /-- How many effects wait for a flush of the program's runtime. -/
  pending : Nat

def Interrupt.message : Interrupt → String
  | .thrown message => message
  | .exhausted => "bodies are nested too deeply"
  | .stopped => "stopped"

def StepReport.result (s : StepReport) : Result :=
  match s.outcome with
  | .ok r => r
  | .error i => .thrown i.message

/-- How many bodies may be nested. It is far above what a program needs whose bodies do not run one
another without end. -/
def nestingLimit : Nat := 1000000000

def World.start (settings : Settings) (hook : Hook) : World :=
  { runtimes := #[{ settings := settings, hook := hook }] }

def runStep (k : Kernel) (e : Expr) : Change StepReport := do
  modify fun w => { w with log := [] }
  let outcome ← (eval k ⟨0, []⟩ e).run
  let w ← get
  return ⟨outcome, w.log.reverse, (w.runtime 0).queue.length⟩

def runSteps (k : Kernel) (es : List Expr) : Change (List StepReport) :=
  es.mapM (runStep k)

def runProgram (settings : Settings) (hook : Hook) (es : List Expr) : List StepReport :=
  ((runSteps (kernel nestingLimit) es).run (.start settings hook)).1

end Reactivity
