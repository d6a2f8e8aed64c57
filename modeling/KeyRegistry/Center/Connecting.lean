import KeyRegistry.Task

/-!
# Opening a session with retries

A connector tries again after a failure that may pass, as long as its policy
allows a retry, and sleeps before each. `draws` is the random number drawn
before each retry.
-/

namespace KeyRegistry.Connecting

/-- One attempt; `again` takes over after a failure that may pass. -/
def attempt (ensemble : Nat) (settings : Settings) (retries : Nat)
    (again : ServiceError → Task (Except RegistryError SessionId)) :
    Task (Except RegistryError SessionId) := do
  match ← Task.perform fun w => w.connect ensemble settings.serverLists settings.identity with
  | .ok s =>
    Task.tell (.connected settings.serverLists s.number retries)
    return .ok s
  | .error e =>
    if e.isTransient then again e
    else
      Task.tell (.connectRejected settings.serverLists e)
      return .error (.service e)

/-- Attempts after `retries` retries, with so many more allowed. -/
def attempts (ensemble : Nat) (settings : Settings) (draws : Nat → Nat) (retries : Nat) :
    Nat → Task (Except RegistryError SessionId)
  | 0 => attempt ensemble settings retries fun e =>
    pure (.error (.retriesExhausted settings.serverLists (retries + 1) e))
  | left + 1 => attempt ensemble settings retries fun e => do
    Task.tell (.backingOff settings.serverLists (retries + 1) settings.backoff.maxRetries e)
    Task.pause (settings.backoff.sleep (draws retries)).millis
    attempts ensemble settings draws (retries + 1) left

/-- The attempts count down what the policy allows: whether another follows is up to the policy. -/
theorem attempts_eq {settings : Settings} {retries left : Nat} (ensemble : Nat)
    (draws : Nat → Nat) (h : retries + left = settings.backoff.maxRetries) :
    attempts ensemble settings draws retries left =
      attempt ensemble settings retries fun e =>
        if settings.backoff.allowsRetry retries then do
          Task.tell (.backingOff settings.serverLists (retries + 1) settings.backoff.maxRetries e)
          Task.pause (settings.backoff.sleep (draws retries)).millis
          attempts ensemble settings draws (retries + 1) (left - 1)
        else pure (.error (.retriesExhausted settings.serverLists (retries + 1) e)) := by
  simp only [Backoff.allowsRetry_iff h]
  cases left with
  | zero => rfl
  | succ left => rfl

def connect (connector : Nat) (draws : Nat → Nat) : Task (Except RegistryError SessionId) := do
  match ← Task.perform fun w => w.resolve connector with
  | .error e => return .error e
  | .ok ensemble =>
    let settings ← Task.look fun w => ((w.connectors[connector]?).map Connector.settings).getD {}
    if retryLimit < settings.maxRetries then Task.tell (.retriesClamped settings.maxRetries)
    attempts ensemble settings draws 0 settings.backoff.maxRetries

end KeyRegistry.Connecting
