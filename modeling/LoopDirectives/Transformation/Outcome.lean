import LoopDirectives.TransformError

/-!
# Outcomes of edits

An edit can fail after it has changed something. Its outcome is what it leaves behind together with
whether it succeeded.
-/

namespace LoopDirectives

structure Outcome (State : Type) where
  state : State
  result : Except TransformError Unit := .ok ()

namespace Outcome

variable {State Whole : Type}

def isOk (outcome : Outcome State) : Bool :=
  outcome.result.toBool

/-- The outcome of an edit that leaves everything as it was when it fails. -/
def ofExcept (before : State) : Except TransformError State → Outcome State
  | .ok after => { state := after }
  | .error cause => { state := before, result := .error cause }

/-- The outcome with its state put into a larger one. -/
def map (embed : State → Whole) (outcome : Outcome State) : Outcome Whole :=
  { state := embed outcome.state, result := outcome.result }

end Outcome

end LoopDirectives
