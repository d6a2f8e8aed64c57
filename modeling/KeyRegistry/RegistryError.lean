import KeyRegistry.ServiceError
import KeyRegistry.Path
import KeyRegistry.Text.Quoted

/-!
# Failures of the registry

Local mistakes in settings and seed files stand beside the failures of the
service. `Disposition` says what a surface that hides failures does with each.
-/

namespace KeyRegistry

inductive LoadFault
  | text (t : String)
  | missingProperty (name : String)
  | unknownFormat
  | malformed
  | wrongType (found expected name : String) (fromEnvironment : Bool)
  | outOfRange (name : String)
  deriving DecidableEq, Repr

/-- A value's own text is shown with the place it comes from only if that is the environment. -/
def LoadFault.message : LoadFault → String
  | .text t => t
  | .missingProperty name => s!"configuration property {Text.quoted name} not found"
  | .unknownFormat => "no reader for this kind of file"
  | .malformed => "malformed settings file"
  | .wrongType found expected name fromEnvironment =>
    let origin := if fromEnvironment then " in the environment" else ""
    s!"invalid type: {found}, expected {expected} for key `{name}`{origin}"
  | .outOfRange name => s!"value out of range for key `{name}`"

inductive RegistryError
  | configuration (text : String)
  | load (fault : LoadFault)
  | seedNotFound (file : String)
  | seedUnreadable (file reason : String)
  | notStarted
  | alreadyStarted
  | invalidPath (path reason : String)
  | retriesExhausted (servers : String) (attempts : Nat) (source : ServiceError)
  | service (e : ServiceError)
  deriving DecidableEq, Repr

namespace RegistryError

def ofPathFault (p : String) (f : Path.Fault) : RegistryError :=
  .invalidPath p f.reason

def message : RegistryError → String
  | .configuration text => s!"Configuration error: {text}"
  | .load fault => s!"Configuration loading failed: {fault.message}"
  | .seedNotFound file => s!"Local properties file not found: {file}"
  | .seedUnreadable file reason => s!"Failed to read local properties {file}: {reason}"
  | .notStarted => "Registry center is not started"
  | .alreadyStarted => "Registry center is already started"
  | .invalidPath p reason => s!"Invalid path '{p}': {reason}"
  | .retriesExhausted servers attempts source =>
    s!"Connection to {servers} failed after {attempts} attempts: {source.message}"
  | .service e => e.message

/-- Local mistakes, which no other attempt can mend. -/
def isConfiguration : RegistryError → Bool
  | .configuration _ | .load _ | .seedNotFound _ | .seedUnreadable _ _ | .invalidPath _ _ => true
  | _ => false

def service? : RegistryError → Option ServiceError
  | .service e => some e
  | .retriesExhausted _ _ e => some e
  | _ => none

def isRecoverable : RegistryError → Bool
  | .service e => e.isTransient
  | .retriesExhausted _ _ _ => true
  | _ => false

def causeText? : RegistryError → Option String
  | .load fault => some fault.message
  | .retriesExhausted _ _ e => some e.message
  | .service (.transactionFailed _ source) => some source.message
  | _ => none

end RegistryError

inductive Disposition
  | ignored
  | interrupted
  | logged
  deriving DecidableEq, Repr

/-- Expected churn is ignored, an interruption raises the flag, and the rest is
logged; a connection given up after its last retry is no expected churn. -/
def RegistryError.disposition (e : RegistryError) : Disposition :=
  match e.service?.map ServiceError.rootCause with
  | some (.interrupted _) => .interrupted
  | some (.connectionLoss _) | some (.noNode _) | some (.nodeExists _) =>
    match e with
    | .retriesExhausted _ _ _ => .logged
    | _ => .ignored
  | _ => .logged

/-- How often each disposition was met, and whether an interruption is unread. -/
structure Tally where
  ignored : Nat := 0
  interruptions : Nat := 0
  logged : Nat := 0
  isInterrupted : Bool := false
  deriving DecidableEq, Repr

namespace Tally

def count (t : Tally) : Disposition → Tally
  | .ignored => { t with ignored := t.ignored + 1 }
  | .interrupted => { t with interruptions := t.interruptions + 1, isInterrupted := true }
  | .logged => { t with logged := t.logged + 1 }

def clear (t : Tally) : Tally := { t with isInterrupted := false }

def total (t : Tally) : Nat := t.ignored + t.interruptions + t.logged

@[simp] theorem total_count (t : Tally) (d : Disposition) : (t.count d).total = t.total + 1 := by
  cases d <;> simp only [count, total] <;> omega

@[simp] theorem total_clear (t : Tally) : t.clear.total = t.total := rfl

end Tally

end KeyRegistry
