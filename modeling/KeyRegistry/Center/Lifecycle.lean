import KeyRegistry.Center.Connecting
import KeyRegistry.Seed

/-!
# Starting and stopping

A center starts in a fixed order: settings and seed file are checked first, then
a session is opened, the namespace node ensured, the seed applied and the replica
started. A start that fails after the session was opened closes it again. A
center stops its replica before its session. Starts and stops of one center take
turns.
-/

namespace KeyRegistry

namespace Replication

/-- Registers a watch for a latent replica and starts its worker on it. -/
def start (replica : Nat) (s : SessionId) : Task (Except RegistryError Unit) := do
  if (← Task.look fun w => w.replicaPhase replica) ≠ .latent then
    return .error .alreadyStarted
  let root ← Task.look fun w => ((w.replica? replica).map Replica.root).getD Path.root
  match ← Task.say s (Dialogue.ask (.watch root)) with
  | .error e => return .error (.service e)
  | .ok watch =>
    if ← Task.perform fun w => w.spawn replica s watch then return .ok ()
    else return .error .alreadyStarted

/-- Stops the worker of a replica, waiting at most `ms` for it, and empties the replica. -/
def close (replica ms : Nat) : Task Shutdown := do
  if ← Task.perform fun w => w.requestStop replica then
    let ended ← Task.awaitSignal (.workerEnded replica) (some ms)
    Task.perform fun w => w.finishStop replica ms ended
  else return .notRunning

end Replication

namespace Center

/-- Runs a task while no other start or stop of the center runs. -/
def inTurn {α : Type} (c : Nat) (t : Task α) : Task α := do
  let ticket ← Task.perform fun w => w.drawTicket c
  let _ ← Task.awaitSignal (.turnOf c ticket) none
  let a ← t
  Task.change fun w => w.passTurn c
  return a

def prepare (settings : Settings) (file : String → Except FileFault (List UInt8)) :
    Except RegistryError (Namespace × Option Seed) := do
  settings.check
  let ns ← settings.namespaceOf
  match settings.seedFile with
  | none => return (ns, none)
  | some name => return (ns, some (← Seed.load name (file name)))

/-- Ensures the namespace node, applies the seed and starts a new replica. -/
def furnish (s : SessionId) (ns : Namespace) (seed : Option Seed) (overwrite : Bool) :
    Task (Except RegistryError Nat) := do
  match ← Task.say s (Dialogue.ensurePath ns.root) with
  | .error e => return .error (.service e)
  | .ok () =>
    let applied ← match seed with
      | none => pure (.ok {})
      | some seed => Task.say s (seed.apply ns overwrite)
    match applied with
    | .error e => return .error e
    | .ok _ =>
      let replica ← Task.perform fun w => w.addReplica ns.root
      match ← Replication.start replica s with
      | .ok () => return .ok replica
      | .error e => return .error e

def start (c : Nat) (draws : Nat → Nat) : Task (Except RegistryError Unit) := inTurn c do
  if (← Task.look fun w => w.active? c).isSome then return .error .alreadyStarted
  let settings ← Task.look fun w => w.settings c
  match ← Task.look fun w => prepare settings (w.seedFile c) with
  | .error e => return .error e
  | .ok (ns, seed) =>
    match seed with
    | some seed => Task.tell (.seedLoaded seed.source seed.entries.length)
    | none => pure ()
    Task.tell (.centerStarting settings.sanitizedText)
    let connector ← Task.look fun w => ((w.center? c).map Center.connector).getD 0
    match ← Connecting.connect connector draws with
    | .error e => return .error e
    | .ok s =>
      match ← furnish s ns seed settings.overwrite with
      | .ok replica =>
        Task.change fun w => w.setActive c (some ⟨s, replica, ns⟩)
        Task.tell (.operation "init" ns.root none "started"
          (some s!"registry_id=<id> session_id={s.number}"))
        return .ok ()
      | .error e =>
        Task.tell (.centerStartFailed e)
        Task.change fun w => w.closeSession s
        return .error e

def stop (c : Nat) : Task Shutdown := inTurn c do
  match ← Task.perform fun w => (w.active? c, w.setActive c none) with
  | none => return .notRunning
  | some active =>
    let timeoutMs ← Task.look fun w => (w.settings c).replicaShutdownMs
    let outcome ← Replication.close active.replica timeoutMs
    if outcome = .timedOut then Task.tell .centerStillDraining
    Task.change fun w => w.closeSession active.session
    Task.tell (.centerClosed active.scope.root outcome)
    return outcome

end Center

end KeyRegistry
