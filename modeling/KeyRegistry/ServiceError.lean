import KeyRegistry.Duration

/-!
# Failures of the coordination service

A failed transaction carries the failure of the operation that stopped it.
Whether a failure may pass, and whether it ends the session, depends on its root
cause alone.
-/

namespace KeyRegistry

inductive ServiceError
  | noNode (path : String)
  | nodeExists (path : String)
  | notEmpty (path : String)
  | badVersion (path : String)
  | noAuth (path : String)
  | noChildrenForEphemerals (path : String)
  | invalidPath (path reason : String)
  | connectionLoss (text : String)
  | sessionExpired
  | sessionClosed
  | interrupted (text : String)
  | timeout (after : Duration)
  | transactionFailed (index : Nat) (source : ServiceError)
  | backend (text : String)
  deriving DecidableEq, Repr, Inhabited

namespace ServiceError

def message : ServiceError → String
  | .noNode p => s!"Node does not exist: {p}"
  | .nodeExists p => s!"Node already exists: {p}"
  | .notEmpty p => s!"Node has children: {p}"
  | .badVersion p => s!"Version mismatch on {p}"
  | .noAuth p => s!"Not authorized to access {p}"
  | .noChildrenForEphemerals p => s!"Ephemeral node cannot have children: {p}"
  | .invalidPath p reason => s!"Invalid path '{p}': {reason}"
  | .connectionLoss text => s!"Connection lost: {text}"
  | .sessionExpired => "Session expired"
  | .sessionClosed => "Session closed"
  | .interrupted text => s!"Operation interrupted: {text}"
  | .timeout d => s!"Operation timed out after {d.text}"
  | .transactionFailed index source =>
    s!"Transaction aborted at operation {index}: {source.message}"
  | .backend text => s!"Coordination backend error: {text}"

def rootCause : ServiceError → ServiceError
  | .transactionFailed _ source => source.rootCause
  | e => e

/-- Whether a new connection or a later attempt may succeed. -/
def isTransient (e : ServiceError) : Bool :=
  match e.rootCause with
  | .connectionLoss _ | .sessionExpired | .timeout _ => true
  | _ => false

/-- Whether the session is gone for good. -/
def endsSession (e : ServiceError) : Bool :=
  match e.rootCause with
  | .sessionExpired | .sessionClosed => true
  | _ => false

@[simp] theorem rootCause_transactionFailed (index : Nat) (source : ServiceError) :
    (transactionFailed index source).rootCause = source.rootCause := rfl

theorem rootCause_ne_transactionFailed (e : ServiceError) (index : Nat) (source : ServiceError) :
    e.rootCause ≠ transactionFailed index source := by
  induction e with
  | transactionFailed _ _ ih => exact ih
  | _ => simp [rootCause]

@[simp] theorem rootCause_rootCause (e : ServiceError) : e.rootCause.rootCause = e.rootCause := by
  induction e with
  | transactionFailed _ _ ih => exact ih
  | _ => rfl

end ServiceError

end KeyRegistry
