/-!
# How a replica was shut down
-/

namespace KeyRegistry

inductive Shutdown
  /-- There was no worker to stop. -/
  | notRunning
  /-- The worker ended in time. -/
  | drained
  /-- The worker was still busy at the deadline and was cancelled. -/
  | timedOut
  deriving DecidableEq, Repr

def Shutdown.label : Shutdown → String
  | .notRunning => "NotRunning"
  | .drained => "Drained"
  | .timedOut => "TimedOut"

end KeyRegistry
